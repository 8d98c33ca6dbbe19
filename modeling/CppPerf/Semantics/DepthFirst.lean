import CppPerf.Semantics.Walks
import Mathlib.Data.Fintype.Card

/-! Depth-first search that does not go beyond one destination: the order in which
it leaves the nodes, and the walks that follow this order. -/
namespace DepthFirst

open Walks

variable {ι : Type*} [DecidableEq ι] (adj : ι → List ι) (dest : ι)

/-- The nodes that were left, the last one first, after a visit of one more node.
The nodes of `path` were entered and not left yet. -/
def visit : (depth : Nat) → Finset ι → List ι → ι → List ι
  | 0, _, done, _ => done
  | depth + 1, path, done, x =>
      if x = dest ∨ x ∈ done ∨ x ∈ path then done
      else x :: (adj x).foldl (visit depth (insert x path)) done

/-- All nodes that a search from `u` leaves. -/
def finishOrder [Fintype ι] (u : ι) : List ι := visit adj dest (Fintype.card ι) ∅ [] u

/-- The number of walks that only go to nodes left earlier, until the destination. -/
def routes : List ι → ι → Nat
  | [], y => if y = dest then 1 else 0
  | x :: done, y => if y = x then ((adj x).map (routes done)).sum else routes done y

/-- Some node has an edge back to a node that was not left before it, and an edge to
a node whose number of such walks is not a multiple of `m`. -/
def Noticed (m : Nat) (done : List ι) : Prop :=
  ∃ x rest, (x :: rest).IsSuffix done ∧ (∃ y ∈ adj x, y ≠ dest ∧ y ∉ rest) ∧
    ∃ y ∈ adj x, ¬m ∣ routes adj dest rest y

section Routes

variable {adj dest} {x y : ι} {done new : List ι} {m : Nat}

theorem routes_of_notMem (hNotMem : y ∉ done) (hNe : y ≠ dest) :
    routes adj dest done y = 0 := by
  induction done with
  | nil => rw [routes, if_neg hNe]
  | cons x done ih =>
      rw [List.mem_cons, not_or] at hNotMem
      rw [routes, if_neg hNotMem.1, ih hNotMem.2]

theorem routes_append (hNotMem : y ∉ new) :
    routes adj dest (new ++ done) y = routes adj dest done y := by
  induction new with
  | nil => rfl
  | cons x new ih =>
      rw [List.mem_cons, not_or] at hNotMem
      rw [List.cons_append, routes, if_neg hNotMem.1, ih hNotMem.2]

theorem routes_dest (hNotMem : dest ∉ done) : routes adj dest done dest = 1 := by
  rw [← List.append_nil done, routes_append hNotMem, routes, if_pos rfl]

theorem routes_suffix (hSuffix : done.IsSuffix new) (hNodup : new.Nodup) (hMem : y ∈ done) :
    routes adj dest new y = routes adj dest done y := by
  obtain ⟨first, rfl⟩ := hSuffix
  exact routes_append fun hFirst => (List.nodup_append.mp hNodup).2.2 y hFirst y hMem rfl

theorem reaches_of_routes_ne_zero (h : routes adj dest done y ≠ 0) : Reaches adj y dest := by
  induction done generalizing y with
  | nil =>
      have hEq : y = dest := by
        by_contra hNe
        exact h (routes_of_notMem List.not_mem_nil hNe)
      rw [hEq]
      exact Reaches.refl dest
  | cons x done ih =>
      rw [routes] at h
      split_ifs at h with hEq
      · obtain ⟨_, hMem, hPos⟩ := List.sum_pos_iff_exists_pos_nat.mp (Nat.pos_of_ne_zero h)
        obtain ⟨z, hz, rfl⟩ := List.mem_map.mp hMem
        rw [hEq]
        exact (Reaches.of_mem hz).trans (ih (Nat.ne_of_gt hPos))
      · exact ih h

theorem noticed_cons : Noticed adj dest m (x :: done) ↔
    ((∃ y ∈ adj x, y ≠ dest ∧ y ∉ done) ∧ ∃ y ∈ adj x, ¬m ∣ routes adj dest done y) ∨
      Noticed adj dest m done := by
  constructor
  · rintro ⟨z, rest, hSuffix, hBack, hRoute⟩
    rcases List.suffix_cons_iff.mp hSuffix with hEq | hSuffix
    · obtain ⟨rfl, rfl⟩ := List.cons.inj hEq
      exact Or.inl ⟨hBack, hRoute⟩
    · exact Or.inr ⟨z, rest, hSuffix, hBack, hRoute⟩
  · rintro (⟨hBack, hRoute⟩ | ⟨z, rest, hSuffix, hBack, hRoute⟩)
    · exact ⟨x, done, List.suffix_rfl, hBack, hRoute⟩
    · exact ⟨z, rest, hSuffix.trans (List.suffix_cons x done), hBack, hRoute⟩

end Routes

variable {adj dest} {root x y : ι} {path : Finset ι} {done : List ι}

/-- What holds of the nodes that were left. From the end of an edge, if it was not
left before, there is a way back. -/
structure Finished (adj : ι → List ι) (dest root : ι) (path : Finset ι) (done : List ι) :
    Prop where
  nodup : done.Nodup
  dest_notMem : dest ∉ done
  apart : ∀ x ∈ path, x ∉ done
  reached : ∀ x ∈ done, Reaches adj root x
  back : ∀ x rest, (x :: rest).IsSuffix done →
    ∀ y ∈ adj x, y = dest ∨ y ∈ rest ∨ Reaches adj y x

/-- Where the search is: below every node that was entered. -/
structure Below (adj : ι → List ι) (root : ι) (path : Finset ι) (x : ι) : Prop where
  reached : Reaches adj root x
  path_reaches : ∀ y ∈ path, Reaches adj y x

theorem Below.step (h : Below adj root path x) (hEdge : y ∈ adj x) :
    Below adj root (insert x path) y where
  reached := h.reached.trans (Reaches.of_mem hEdge)
  path_reaches z hz := by
    rcases Finset.mem_insert.mp hz with rfl | hz
    · exact Reaches.of_mem hEdge
    · exact (h.path_reaches z hz).trans (Reaches.of_mem hEdge)

namespace Finished

omit [DecidableEq ι] in
theorem nil (root : ι) : Finished adj dest root ∅ [] where
  nodup := List.nodup_nil
  dest_notMem := List.not_mem_nil
  apart _ hx := absurd hx (Finset.notMem_empty _)
  reached _ hx := absurd hx List.not_mem_nil
  back _ _ hSuffix := absurd (List.suffix_nil.mp hSuffix) (List.cons_ne_nil _ _)

theorem enter (h : Finished adj dest root path done) (hx : x ∉ done) :
    Finished adj dest root (insert x path) done where
  nodup := h.nodup
  dest_notMem := h.dest_notMem
  apart y hy := by
    rcases Finset.mem_insert.mp hy with rfl | hy
    · exact hx
    · exact h.apart y hy
  reached := h.reached
  back := h.back

/-- A node is left when each of its edges goes to the destination, to a node that
was left, or back to the path. -/
theorem leave (h : Finished adj dest root (insert x path) done) (hBelow : Below adj root path x)
    (hNe : x ≠ dest) (hx : x ∉ path)
    (hEdges : ∀ y ∈ adj x, y = dest ∨ y ∈ done ∨ y ∈ insert x path) :
    Finished adj dest root path (x :: done) where
  nodup := List.nodup_cons.mpr ⟨h.apart x (Finset.mem_insert_self x path), h.nodup⟩
  dest_notMem := fun hDest => (List.mem_cons.mp hDest).elim hNe.symm h.dest_notMem
  apart y hy := by
    have hNeq : y ≠ x := by
      rintro rfl
      exact hx hy
    exact fun hMem => (List.mem_cons.mp hMem).elim hNeq (h.apart y (Finset.mem_insert_of_mem hy))
  reached y hy := by
    rcases List.mem_cons.mp hy with rfl | hy
    · exact hBelow.reached
    · exact h.reached y hy
  back z rest hSuffix y hEdge := by
    rcases List.suffix_cons_iff.mp hSuffix with hEq | hSuffix
    · obtain ⟨rfl, rfl⟩ := List.cons.inj hEq
      rcases hEdges y hEdge with rfl | hy | hy
      · exact Or.inl rfl
      · exact Or.inr (Or.inl hy)
      · rcases Finset.mem_insert.mp hy with rfl | hy
        · exact Or.inr (Or.inr (Reaches.refl _))
        · exact Or.inr (Or.inr (hBelow.path_reaches y hy))
    · exact h.back z rest hSuffix y hEdge

end Finished

section Visit

variable {depth : Nat}

theorem visit_known (h : x = dest ∨ x ∈ done ∨ x ∈ path) :
    visit adj dest depth path done x = done := by
  cases depth with
  | zero => rfl
  | succ depth => rw [visit, if_pos h]

/-- What a visit adds, if all nodes below may still be entered. -/
structure Visited (adj : ι → List ι) (dest root : ι) (path : Finset ι) (done done' : List ι) :
    Prop where
  finished : Finished adj dest root path done'
  suffix : done.IsSuffix done'

omit [DecidableEq ι] in
theorem Visited.trans {done' done'' : List ι} (h : Visited adj dest root path done done')
    (h' : Visited adj dest root path done' done'') : Visited adj dest root path done done'' :=
  ⟨h'.finished, h.suffix.trans h'.suffix⟩

omit [DecidableEq ι] in
/-- The rule for the loop over the edges of a node. -/
theorem foldl_visited {f : List ι → ι → List ι} {l : List ι}
    (hVisit : ∀ y ∈ l, ∀ done, Finished adj dest root path done →
      Visited adj dest root path done (f done y) ∧ (y = dest ∨ y ∈ f done y ∨ y ∈ path))
    (h : Finished adj dest root path done) :
    Visited adj dest root path done (l.foldl f done) ∧
      ∀ y ∈ l, y = dest ∨ y ∈ l.foldl f done ∨ y ∈ path := by
  induction l generalizing done with
  | nil => exact ⟨⟨h, List.suffix_rfl⟩, fun y hy => absurd hy List.not_mem_nil⟩
  | cons x l ih =>
      obtain ⟨hFirst, hFirstEdge⟩ := hVisit x List.mem_cons_self done h
      obtain ⟨hRest, hEdges⟩ := ih (fun y hy => hVisit y (List.mem_cons_of_mem x hy))
        hFirst.finished
      refine ⟨hFirst.trans hRest, fun y hy => ?_⟩
      rcases List.mem_cons.mp hy with rfl | hy
      · rcases hFirstEdge with hEq | hMem | hPath
        · exact Or.inl hEq
        · exact Or.inr (Or.inl (hRest.suffix.subset hMem))
        · exact Or.inr (Or.inr hPath)
      · exact hEdges y hy

variable [Fintype ι]

theorem visit_visited (hDepth : Fintype.card ι ≤ depth + path.card)
    (h : Finished adj dest root path done) (hBelow : Below adj root path x) :
    Visited adj dest root path done (visit adj dest depth path done x) ∧
      (x = dest ∨ x ∈ visit adj dest depth path done x ∨ x ∈ path) := by
  induction depth generalizing path done x with
  | zero =>
      have hAll : path = Finset.univ := by
        apply Finset.eq_univ_of_card
        have hLe := Finset.card_le_univ path
        omega
      exact ⟨⟨h, List.suffix_rfl⟩, Or.inr (Or.inr (by rw [hAll]; exact Finset.mem_univ x))⟩
  | succ depth ih =>
      by_cases hKnown : x = dest ∨ x ∈ done ∨ x ∈ path
      · rw [visit_known hKnown]
        exact ⟨⟨h, List.suffix_rfl⟩, hKnown⟩
      · rw [visit, if_neg hKnown]
        push Not at hKnown
        obtain ⟨hNe, hDone, hPath⟩ := hKnown
        have hCard := Finset.card_insert_of_notMem hPath
        obtain ⟨hLoop, hEdges⟩ := foldl_visited
          (f := visit adj dest depth (insert x path)) (l := adj x)
          (fun y hy _ hFinished => ih (by omega) hFinished (hBelow.step hy)) (h.enter hDone)
        refine ⟨⟨hLoop.finished.leave hBelow hNe hPath hEdges, ?_⟩,
          Or.inr (Or.inl List.mem_cons_self)⟩
        exact hLoop.suffix.trans (List.suffix_cons x _)

theorem finishOrder_visited (u : ι) : Visited adj dest u ∅ [] (finishOrder adj dest u) ∧
    (u = dest ∨ u ∈ finishOrder adj dest u) := by
  have hBelow : Below adj u ∅ u :=
    ⟨Reaches.refl u, fun y hy => absurd hy (Finset.notMem_empty y)⟩
  obtain ⟨hVisited, hEnd⟩ := visit_visited (Nat.le_add_right _ _)
    (Finished.nil u) hBelow
  exact ⟨hVisited, hEnd.imp_right fun h => h.resolve_right (Finset.notMem_empty u)⟩

end Visit

section Cycles

/-- What the search notices is a cycle on the way to the destination. -/
theorem Finished.endless_of_noticed {m : Nat} (h : Finished adj dest root path done)
    (hNoticed : Noticed adj dest m done) : Endless adj dest root := by
  obtain ⟨x, rest, hSuffix, ⟨y, hEdge, hNe, hNotMem⟩, z, hRoute, hCount⟩ := hNoticed
  refine ⟨x, h.reached x (hSuffix.subset List.mem_cons_self), ?_, ?_⟩
  · rcases h.back x rest hSuffix y hEdge with rfl | hMem | hBack
    · exact absurd rfl hNe
    · exact absurd hMem hNotMem
    · exact OnCycle.of_mem hEdge hBack
  · have hne : routes adj dest rest z ≠ 0 := by
      intro hZero
      rw [hZero] at hCount
      exact hCount (Nat.dvd_zero m)
    exact (Reaches.of_mem hRoute).trans (reaches_of_routes_ne_zero hne)

/-- Without such a cycle, every walk follows the order. -/
theorem Finished.ncard_walks (h : Finished adj dest root path done)
    (hFree : ¬Endless adj dest root) :
    ∀ x ∈ done, (walks adj dest x).Finite ∧
      (walks adj dest x).ncard = routes adj dest done x := by
  have hSuffixes : ∀ order : List ι, order.IsSuffix done → ∀ x ∈ order,
      (walks adj dest x).Finite ∧ (walks adj dest x).ncard = routes adj dest order x := by
    intro order hSuffix
    induction order with
    | nil => exact fun x hx => absurd hx List.not_mem_nil
    | cons x order ih =>
        have hOrder := ih ((List.suffix_cons x order).trans hSuffix)
        have hReached := h.reached x (hSuffix.subset List.mem_cons_self)
        have hNe : x ≠ dest := fun hEq =>
          h.dest_notMem (hEq ▸ hSuffix.subset List.mem_cons_self)
        -- each edge goes on in the order, or to where no walk comes from
        have hEdges : ∀ y ∈ adj x, (walks adj dest y).Finite ∧
            (walks adj dest y).ncard = routes adj dest order y := by
          intro y hy
          by_cases hMem : y ∈ order
          · exact hOrder y hMem
          · by_cases hDest : y = dest
            · have hEnd : ¬OnCycle adj dest := fun hCycle => hFree
                ⟨dest, hReached.trans (Reaches.of_mem (hDest ▸ hy)), hCycle, Reaches.refl dest⟩
              rw [hDest] at hMem ⊢
              rw [walks_dest hEnd, routes_dest hMem]
              exact ⟨Set.finite_singleton [], Set.ncard_singleton []⟩
            · have hBack : Reaches adj y x := by
                rcases h.back x order hSuffix y hy with hEq | hIn | hBack
                · exact absurd hEq hDest
                · exact absurd hIn hMem
                · exact hBack
              have hNone : ¬Reaches adj y dest := fun hReaches => hFree
                ⟨x, hReached, OnCycle.of_mem hy hBack, (Reaches.of_mem hy).trans hReaches⟩
              rw [walks_eq_empty hNone, routes_of_notMem hMem hDest]
              exact ⟨Set.finite_empty, Set.ncard_empty _⟩
        intro z hz
        by_cases hEq : z = x
        · obtain ⟨hFinite, hCard⟩ := ncard_through fun y hy => (hEdges y hy).1
          rw [hEq, walks_eq_through hNe, routes, if_pos rfl, hCard]
          refine ⟨hFinite, congrArg List.sum (List.map_congr_left fun y hy => (hEdges y hy).2)⟩
        · rw [routes, if_neg hEq]
          exact hOrder z ((List.mem_cons.mp hz).resolve_left hEq)
  exact hSuffixes done List.suffix_rfl

end Cycles
end DepthFirst
