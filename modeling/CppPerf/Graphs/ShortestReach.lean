import CppPerf.Graphs.ComponentSize
import CppPerf.Semantics.BreadthFirst

/-! The breadth-first search finds the distances from its start. -/
namespace CppPerf.Graphs.GraphUnweighted

open Indexed BreadthFirst

/-- The ends of an edge, counted from 0. -/
def Adjacent (base : Nat) (edges : List (Nat × Nat)) (u v : Nat) : Prop :=
  (u + base, v + base) ∈ edges ∨ (v + base, u + base) ∈ edges

/-- The ends of all edges are nodes. -/
def Valid (N base : Nat) (edges : List (Nat × Nat)) : Prop :=
  ∀ e ∈ edges, (base ≤ e.1 ∧ e.1 < N + base) ∧ base ≤ e.2 ∧ e.2 < N + base

instance (N base : Nat) (edges : List (Nat × Nat)) : Decidable (Valid N base edges) :=
  inferInstanceAs (Decidable (∀ e ∈ edges, _))

section Edges

variable {N base u v : Nat} {edges : List (Nat × Nat)}

theorem Adjacent.lt (hValid : Valid N base edges) (h : Adjacent base edges u v) : v < N := by
  rcases h with hMem | hMem
  · have hEnds := hValid _ hMem
    dsimp only at hEnds
    omega
  · have hEnds := hValid _ hMem
    dsimp only at hEnds
    omega

theorem undirectEdges_shift (hEdges : ∀ e ∈ edges, base ≤ e.1 ∧ base ≤ e.2)
    (g : GraphUnweighted) : g.undirectEdges base edges =
      g.undirectEdges 0 (edges.map fun e => (e.1 - base, e.2 - base)) := by
  induction edges generalizing g with
  | nil => rfl
  | cons e edges ih =>
      obtain ⟨hFirst, hSecond⟩ := hEdges e List.mem_cons_self
      rw [List.map_cons, undirectEdges, undirectEdges, Nat.psub_eq_sub hFirst,
        Nat.psub_eq_sub hSecond]
      simp only [Nat.psub, Option.bind_some]
      congr 1
      funext g
      congr 1
      funext g
      exact ih (fun e he => hEdges e (List.mem_cons_of_mem _ he)) g

theorem mem_shifted (hEdges : ∀ e ∈ edges, base ≤ e.1 ∧ base ≤ e.2) :
    (u, v) ∈ edges.map (fun e => (e.1 - base, e.2 - base)) ↔ (u + base, v + base) ∈ edges := by
  rw [List.mem_map]
  constructor
  · rintro ⟨⟨a, b⟩, hMem, hEq⟩
    obtain ⟨ha, hb⟩ := hEdges _ hMem
    obtain ⟨rfl, rfl⟩ := Prod.mk.inj hEq
    dsimp only at ha hb
    rwa [Nat.sub_add_cancel ha, Nat.sub_add_cancel hb]
  · intro hMem
    exact ⟨_, hMem, by simp⟩

/-- The lists of neighbours, for whatever number the nodes are counted from. -/
theorem undirectEdges_adjacent (hValid : Valid N base edges) :
    ∃ g, (construct N).undirectEdges base edges = some g ∧ g.adjList.size = N ∧
      ∀ u v, v ∈ g.adjList.get u ↔ Adjacent base edges u v := by
  have hBase : ∀ e ∈ edges, base ≤ e.1 ∧ base ≤ e.2 := fun e he =>
    ⟨(hValid e he).1.1, (hValid e he).2.1⟩
  have hRange : ∀ e ∈ edges.map (fun e => (e.1 - base, e.2 - base)),
      e.1 ∈ Finset.range N ∧ e.2 ∈ Finset.range N := by
    intro e he
    obtain ⟨e, hMem, rfl⟩ := List.mem_map.mp he
    have hEnds := hValid e hMem
    rw [Finset.mem_range, Finset.mem_range]
    dsimp only
    omega
  obtain ⟨g, hRun, hJoins⟩ := undirectEdges_joins hRange
  refine ⟨g, by rw [undirectEdges_shift hBase, hRun], hJoins.size_adjList, fun u v => ?_⟩
  rw [hJoins.mem_iff, mem_shifted hBase, mem_shifted hBase]
  rfl

end Edges

/-- The distance that a weight stands for. -/
def label (weight : Vec Int) (v : Nat) : Option Nat :=
  if weight.get v = -1 then none else some (weight.get v).toNat

def labelledNodes (weight : Vec Int) : Finset Nat :=
  (Finset.range weight.size).filter fun v => weight.get v ≠ -1

/-- The weights are labels of a search. -/
structure Searching (R : Nat → Nat → Prop) (s N : Nat) (weight : Vec Int) (q : List Nat) :
    Prop where
  size_weight : weight.size = N
  labels : Labels R s (label weight) q
  nonneg : ∀ v, weight.get v ≠ -1 → 0 ≤ weight.get v

/-- From the weights before to the ones after, with new nodes in the queue. -/
structure Labelled (R : Nat → Nat → Prop) (s N : Nat) (weight weight' : Vec Int)
    (q more : List Nat) : Prop where
  searching : Searching R s N weight' (q ++ more)
  kept : ∀ v, weight.get v ≠ -1 → weight'.get v ≠ -1
  card_eq : (labelledNodes weight').card = (labelledNodes weight).card + more.length

section Search

variable {R : Nat → Nat → Prop} {s N x y : Nat} {weight : Vec Int} {q : List Nat}

theorem label_eq_none : label weight y = none ↔ weight.get y = -1 := by
  rw [label]
  split_ifs with hNone
  · exact iff_of_true rfl hNone
  · exact iff_of_false (by simp) hNone

theorem Searching.label_eq_some (h : Searching R s N weight q) {d : Nat} :
    label weight y = some d ↔ weight.get y = d := by
  rw [label]
  split_ifs with hNone
  · refine iff_of_false (by simp) ?_
    omega
  · have hNonneg := h.nonneg y hNone
    rw [Option.some.injEq]
    omega

theorem label_set (weight : Vec Int) (v d : Nat) :
    label (weight.set v (d : Int)) = Function.update (label weight) v (some d) := by
  funext u
  by_cases hEq : u = v
  · rw [hEq, Function.update_self, label, Vec.get_set_self, if_neg (by omega), Int.toNat_natCast]
  · rw [Function.update_of_ne hEq, label, Vec.get_set_of_ne _ _ hEq, label]

theorem mem_labelledNodes : y ∈ labelledNodes weight ↔ y < weight.size ∧ weight.get y ≠ -1 := by
  rw [labelledNodes, Finset.mem_filter, Finset.mem_range]

theorem card_labelledNodes_set {k : Int} (hLt : y < weight.size) (hNew : weight.get y = -1)
    (hk : k ≠ -1) : (labelledNodes (weight.set y k)).card = (labelledNodes weight).card + 1 := by
  have hInsert : labelledNodes (weight.set y k) = insert y (labelledNodes weight) := by
    ext v
    rw [Finset.mem_insert, mem_labelledNodes, mem_labelledNodes, Vec.size_set]
    by_cases hEq : v = y
    · subst hEq
      rw [Vec.get_set_self]
      exact iff_of_true ⟨hLt, hk⟩ (Or.inl rfl)
    · rw [Vec.get_set_of_ne _ _ hEq, or_iff_right hEq]
  rw [hInsert, Finset.card_insert_of_notMem fun hMem => (mem_labelledNodes.mp hMem).2 hNew]

theorem card_labelledNodes_le (weight : Vec Int) :
    (labelledNodes weight).card ≤ weight.size := by
  rw [← Finset.card_range weight.size]
  exact Finset.card_le_card (Finset.filter_subset _ _)

theorem Labelled.refl (h : Searching R s N weight q) : Labelled R s N weight weight q [] :=
  ⟨by rwa [List.append_nil], fun _ hv => hv, rfl⟩

theorem Labelled.trans {weight' weight'' : Vec Int} {more more' : List Nat}
    (h : Labelled R s N weight weight' q more)
    (h' : Labelled R s N weight' weight'' (q ++ more) more') :
    Labelled R s N weight weight'' q (more ++ more') where
  searching := by
    rw [← List.append_assoc]
    exact h'.searching
  kept v hv := h'.kept v (h.kept v hv)
  card_eq := by
    rw [h'.card_eq, h.card_eq, List.length_append, Nat.add_assoc]

theorem bfsEdge_spec (h : Searching R s N weight (x :: q)) (hEdge : R x y) (hy : y < N) :
    ∃ weight' more, bfsEdge x (weight, x :: q) y = some (weight', x :: q ++ more) ∧
      Labelled R s N weight weight' (x :: q) more ∧ weight'.get y ≠ -1 := by
  have hLt : y < weight.size := h.size_weight.symm ▸ hy
  rw [bfsEdge, if_pos hLt]
  by_cases hNew : weight.get y = -1
  · obtain ⟨d, hd⟩ := h.labels.labelled x List.mem_cons_self
    have hWeight := h.label_eq_some.mp hd
    have hNext : weight.get x + 1 = ((d + 1 : Nat) : Int) := by
      rw [hWeight]
      rfl
    rw [if_pos hNew, hNext]
    have hGet : (weight.set y ((d + 1 : Nat) : Int)).get y ≠ -1 := by
      rw [Vec.get_set_self]
      omega
    have hKept : ∀ v, weight.get v ≠ -1 → (weight.set y ((d + 1 : Nat) : Int)).get v =
        weight.get v := by
      intro v hv
      rw [Vec.get_set_of_ne]
      rintro rfl
      exact hv hNew
    refine ⟨_, [y], rfl, ⟨⟨h.size_weight, ?_, ?_⟩, ?_, ?_⟩, hGet⟩
    · rw [label_set]
      exact h.labels.label hd hEdge (label_eq_none.mpr hNew)
    · intro v hv
      rw [Vec.get_set] at hv ⊢
      split_ifs at hv ⊢ with hEq
      · exact Int.natCast_nonneg _
      · exact h.nonneg v hv
    · intro v hv
      rwa [hKept v hv]
    · exact card_labelledNodes_set hLt hNew (by omega)
  · rw [if_neg hNew]
    exact ⟨weight, [], by rw [List.append_nil], Labelled.refl h, hNew⟩

/-- After the loop over the neighbours all of them have a label. -/
theorem neighbours_labelled {l : List Nat} (hl : ∀ y ∈ l, R x y ∧ y < N)
    (h : Searching R s N weight (x :: q)) :
    ∃ weight' more, l.foldlM (bfsEdge x) (weight, x :: q) = some (weight', x :: q ++ more) ∧
      Labelled R s N weight weight' (x :: q) more ∧ ∀ y ∈ l, weight'.get y ≠ -1 := by
  induction l generalizing weight q with
  | nil => exact ⟨weight, [], by simp, Labelled.refl h, fun y hy => absurd hy List.not_mem_nil⟩
  | cons y l ih =>
      obtain ⟨hEdge, hy⟩ := hl y List.mem_cons_self
      obtain ⟨mid, new, hStep, hMid, hLabel⟩ := bfsEdge_spec h hEdge hy
      obtain ⟨weight', more, hRun, hRest, hAll⟩ :=
        ih (fun v hv => hl v (List.mem_cons_of_mem y hv)) hMid.searching
      refine ⟨weight', new ++ more, ?_, hMid.trans hRest, fun v hv => ?_⟩
      · rw [List.foldlM_cons, hStep, ← List.append_assoc]
        exact hRun
      · rcases List.mem_cons.mp hv with rfl | hv
        · exact hRest.kept v hLabel
        · exact hAll v hv

variable {g : GraphUnweighted}

theorem bfsLoop_spec (hAdjacent : ∀ u v, v ∈ g.adjList.get u ↔ R u v)
    (hNodes : ∀ u v, R u v → v < N) {rounds : Nat} (h : Searching R s N weight q)
    (hRounds : q.length + N < rounds + (labelledNodes weight).card) :
    ∃ weight', g.bfsLoop rounds weight q = some weight' ∧ Searching R s N weight' [] := by
  induction rounds generalizing weight q with
  | zero =>
      have hLe := card_labelledNodes_le weight
      rw [h.size_weight] at hLe
      omega
  | succ rounds ih =>
      cases q with
      | nil => exact ⟨weight, rfl, h⟩
      | cons x q =>
          obtain ⟨mid, more, hRun, hMid, hAll⟩ := neighbours_labelled
            (fun y hy => ⟨(hAdjacent x y).mp hy, hNodes x y ((hAdjacent x y).mp hy)⟩) h
          have hPopped : Searching R s N mid (q ++ more) := by
            refine ⟨hMid.searching.size_weight, hMid.searching.labels.pop fun y hEdge => ?_,
              hMid.searching.nonneg⟩
            apply Option.ne_none_iff_exists'.mp
            exact label_eq_none.not.mpr (hAll y ((hAdjacent x y).mpr hEdge))
          have hCard := hMid.card_eq
          rw [List.length_cons] at hRounds
          rw [bfsLoop, hRun, Option.bind_some]
          refine ih hPopped ?_
          rw [List.cons_append, List.tail_cons, List.length_append, hCard]
          omega

theorem bfs_spec (hAdjacent : ∀ u v, v ∈ g.adjList.get u ↔ R u v) (hNodes : ∀ u v, R u v → v < N)
    (hSize : g.adjList.size = N) (hs : s < N) :
    ∃ weight, g.bfs s = some weight ∧ Searching R s N weight [] := by
  rw [bfs, hSize, if_pos hs]
  have hStart : Searching R s N ((⟨N, fun _ => -1⟩ : Vec Int).set s 0) [s] := by
    refine ⟨rfl, ?_, fun v hv => ?_⟩
    · have hLabels := Labels.initial (R := R) s
      have hNone : label ⟨N, fun _ => -1⟩ = fun _ => none := rfl
      rw [← hNone, ← label_set] at hLabels
      exact hLabels
    · rw [Vec.get_set] at hv ⊢
      split_ifs at hv ⊢ with hEq
      · exact Int.le_refl 0
      · exact absurd rfl hv
  have hMem : s ∈ labelledNodes ((⟨N, fun _ => -1⟩ : Vec Int).set s 0) := by
    rw [mem_labelledNodes, Vec.get_set_self]
    exact ⟨hs, by decide⟩
  have hPos := Finset.card_pos.mpr ⟨s, hMem⟩
  exact bfsLoop_spec hAdjacent hNodes hStart (by rw [List.length_singleton]; omega)

end Search

/-- The weight of a node is its distance from the start, and -1 if there is no path. -/
theorem bfs_distance (N base : Nat) (edges : List (Nat × Nat)) (hValid : Valid N base edges)
    (s : Nat) (hs : s < N) :
    ∃ g weight, (construct N).undirectEdges base edges = some g ∧ g.bfs s = some weight ∧
      weight.size = N ∧ ∀ v < N,
        (∀ d : Nat, weight.get v = d ↔ Distance (Adjacent base edges) s v d) ∧
        (weight.get v = -1 ↔ ¬∃ n, Steps (Adjacent base edges) s n v) := by
  obtain ⟨g, hEdges, hSize, hAdjacent⟩ := undirectEdges_adjacent hValid
  obtain ⟨weight, hRun, h⟩ := bfs_spec hAdjacent (fun _ _ hEdge => hEdge.lt hValid) hSize hs
  refine ⟨g, weight, hEdges, hRun, h.size_weight, fun v _ => ⟨fun d => ?_, ?_⟩⟩
  · rw [← h.label_eq_some, h.labels.distance_iff]
  · rw [← label_eq_none, h.labels.eq_none_iff]

/-- Two parallel edges, a loop, and a node that is not reached. -/
theorem bfs_distance_four :
    ∃ g weight, (construct 4).undirectEdges 1 [(1, 2), (2, 1), (2, 2), (3, 2)] = some g ∧
      g.bfs 0 = some weight ∧ weight.get 2 = 2 ∧
      Distance (Adjacent 1 [(1, 2), (2, 1), (2, 2), (3, 2)]) 0 2 2 := by
  obtain ⟨g, weight, hEdges, hRun, -, hAll⟩ :=
    bfs_distance 4 1 [(1, 2), (2, 1), (2, 2), (3, 2)] (by decide) 0 (by decide)
  have hTwo : weight.get 2 = 2 := by
    have hValue : (((construct 4).undirectEdges 1 [(1, 2), (2, 1), (2, 2), (3, 2)]).bind
        fun g => g.bfs 0).map (fun weight => weight.get 2) = some 2 := rfl
    rw [hEdges, Option.bind_some, hRun] at hValue
    exact Option.some.inj hValue
  exact ⟨g, weight, hEdges, hRun, hTwo, ((hAll 2 (by decide)).1 2).mp hTwo⟩

end CppPerf.Graphs.GraphUnweighted
