import CppPerf.Graphs.CycleFinder
import Mathlib.Algebra.Order.BigOperators.Group.List
import Mathlib.Data.Finset.Image
import Mathlib.Data.List.Chain

/-! The cycles that `sum_cycle` sums up. -/
namespace CppPerf.Graphs

open Ordered

namespace Cycle_Finder

variable {A : Node → List Node} {P : Node → Prop} {first start x y : Node} {size fuel depth : Nat}
  {edges edges' : Edges} {p c : List Node} {es : List (Node × Node)}

/-- Each node has an edge to the next one, and the last node to the first one. -/
def Closed (E : Node → Node → Prop) (c : List Node) : Prop :=
  ∃ v rest, c = v :: rest ∧ (c ++ [v]).IsChain E

structure IsCycle (es : List (Node × Node)) (size : Nat) (c : List Node) : Prop where
  length_eq : c.length = size
  indices : (c.map Node.index).Nodup
  values : (c.map Node.value).Nodup
  closed : Closed (fun x y => (x, y) ∈ es) c

theorem route_iff : Route A first x p ↔
    (p ++ [first]).head? = some x ∧ (p ++ [first]).IsChain fun x y => y ∈ A x := by
  induction p generalizing x with
  | nil =>
      constructor
      · intro h
        cases h
        exact ⟨rfl, List.isChain_singleton _⟩
      · rintro ⟨hHead, -⟩
        obtain rfl : first = x := by simpa using hHead
        exact .back
  | cons z p ih =>
      obtain ⟨y, hHead⟩ : ∃ y, (p ++ [first]).head? = some y := by cases p <;> simp
      have hCons : (p ++ [first]) = y :: (p ++ [first]).tail :=
        (List.head?_eq_some_iff.mp hHead).elim fun rest h => by rw [h]; rfl
      rw [List.cons_append, hCons, List.isChain_cons_cons, ← hCons]
      constructor
      · intro h
        cases h with
        | enter hEdge hRoute =>
            obtain ⟨hFirst, hChain⟩ := ih.mp hRoute
            rw [hHead] at hFirst
            cases hFirst
            exact ⟨rfl, hEdge, hChain⟩
      · rintro ⟨hFirst, hEdge, hChain⟩
        obtain rfl : z = x := by simpa using hFirst
        exact .enter hEdge (ih.mpr ⟨hHead, hChain⟩)

/-- The entries are those of the nodes. -/
theorem perm_enterAll (h : (p.map Node.index).Nodup) :
    (enterAll OrderedMap.empty p).entries.Perm (p.map fun x => (x.index, x.value)) := by
  have hOfList : enterAll OrderedMap.empty p =
      OrderedMap.ofList (p.map fun x => (x.index, x.value)) := by
    rw [enterAll, OrderedMap.ofList, List.foldl_map]
    rfl
  rw [hOfList]
  apply OrderedMap.perm_ofList
  rwa [List.map_map]

theorem perm_values (h : (p.map Node.index).Nodup) :
    (values (enterAll OrderedMap.empty p)).Perm (p.map Node.value) := by
  have hPerm := (perm_enterAll h).map Prod.snd
  rwa [List.map_map] at hPerm

/-- From an empty map a call completes just the cycles through its node. -/
theorem completes_empty_iff : Completes A first size OrderedMap.empty first p ↔
    p.length = size ∧ (p.map Node.index).Nodup ∧ (p.map Node.value).Nodup ∧
      ∃ rest, p = first :: rest ∧ (p ++ [first]).IsChain fun x y => y ∈ A x := by
  constructor
  · intro h
    have hLength := (perm_enterAll h.indices).length_eq
    rw [h.size_eq, List.length_map] at hLength
    refine ⟨hLength.symm, h.indices, (perm_values h.indices).nodup_iff.mp h.values_nodup, ?_⟩
    have hChain := (route_iff.mp h.route).2
    cases h.route with
    | back =>
        have hCloses := h.closes
        cases hCloses
    | enter hEdge hRoute => exact ⟨_, rfl, hChain⟩
  · rintro ⟨hLength, hIndices, hValues, rest, rfl, hChain⟩
    refine ⟨route_iff.mpr ⟨rfl, hChain⟩, fun _ _ => rfl, hIndices, ?_, ?_, ?_⟩
    · have hMem : (first.index, first.value) ∈
          (enterAll OrderedMap.empty (first :: rest)).entries := by
        rw [(perm_enterAll hIndices).mem_iff]
        exact List.mem_cons_self
      rw [(OrderedMap.lookup_eq_some_iff _).mpr hMem]
      rfl
    · rw [(perm_enterAll hIndices).length_eq, List.length_map, hLength]
    · exact (perm_values hIndices).nodup_iff.mpr hValues

/-- The sum wraps around as a whole. -/
theorem accumulate_eq (h : (p.map Node.index).Nodup) :
    accumulate (enterAll OrderedMap.empty p) = ((p.map Node.value).sum).bmod (2 ^ 32) := by
  have hFold : ∀ (l : List Int) (init : Int),
      l.foldl (fun init v => (init + v).bmod (2 ^ 32)) (init.bmod (2 ^ 32)) =
        (init + l.sum).bmod (2 ^ 32) := by
    intro l
    induction l with
    | nil => simp
    | cons v l ih =>
        intro init
        rw [List.foldl_cons, Int.bmod_add_bmod, ih, List.sum_cons, Int.add_assoc]
  have hZero : (0 : Int) = (0 : Int).bmod (2 ^ 32) := by decide
  rw [accumulate, hZero, hFold, Int.zero_add, (perm_values h).sum_eq]

section Loop

variable {e : Option Node} {ans ans' : List Int} {N : Finset Node}

/-- A cycle through the node can be completed. -/
def Good (A : Node → List Node) (size : Nat) (v : Node) (p : List Node) : Prop :=
  Completes A v size OrderedMap.empty v p

/-- A node with successors is a key. -/
theorem Holds.key_of_good (h : Holds A P edges) (hGood : Good A size x p) :
    ∃ l, (x, l) ∈ edges.entries := by
  obtain ⟨-, -, -, rest, rfl, hChain⟩ := completes_empty_iff.mp hGood
  have hSome : ∃ y, y ∈ A x := by
    cases rest with
    | nil => exact ⟨x, (List.isChain_cons_cons.mp hChain).1⟩
    | cons y rest => exact ⟨y, (List.isChain_cons_cons.mp hChain).1⟩
  obtain ⟨y, hy⟩ := hSome
  rw [← h.adjacent_eq x, adjacent] at hy
  cases hLookup : edges.lookup x with
  | none => simp [hLookup] at hy
  | some l => exact ⟨l, (OrderedMap.lookup_eq_some_iff _).mp hLookup⟩

/-- The next key is not behind a good node. -/
theorem nextKey_le (h : Holds A P edges) (hGood : Good A size y p) (hLt : x < y) :
    ∃ z, nextKey edges x = some z ∧ z ≤ y := by
  obtain ⟨l, hMem⟩ := h.key_of_good hGood
  rw [nextKey]
  cases hUpper : edges.upperBound x with
  | none => exact absurd (OrderedMap.upperBound_eq_none _ hUpper _ hMem) hLt.not_ge
  | some z => exact ⟨z.1, rfl, (OrderedMap.upperBound_eq_some _ hUpper).2.2 _ hMem hLt⟩

theorem nextKey_eq_some (h : nextKey edges x = some y) :
    x < y ∧ ∃ l, (y, l) ∈ edges.entries := by
  rw [nextKey, Option.map_eq_some_iff] at h
  obtain ⟨z, hUpper, rfl⟩ := h
  obtain ⟨hMem, hLt, -⟩ := OrderedMap.upperBound_eq_some _ hUpper
  exact ⟨hLt, z.2, hMem⟩

/-- Every sum comes from a cycle, and a sum is found or the good nodes are still ahead. -/
structure Progress (A : Node → List Node) (size : Nat) (e : Option Node) (ans : List Int) :
    Prop where
  sound : ∀ s ∈ ans, ∃ v p, Good A size v p ∧ s = accumulate (enterAll OrderedMap.empty p)
  ahead : ∀ v p, Good A size v p → ans ≠ [] ∨ ∃ k, e = some k ∧ k ≤ v

theorem Progress.next {b : Bool} {R' : Result} (h : Progress A size (some x) ans)
    (hOutcome : Outcome A P x size OrderedMap.empty x b R' edges) :
    Progress A size (nextKey edges x)
      (if b then insertElement (accumulate R') ans else ans) := by
  cases b with
  | true =>
      obtain ⟨p, hp, rfl⟩ := hOutcome.found rfl
      constructor
      · intro s hs
        rcases mem_insertElement.mp hs with rfl | hs
        · exact ⟨x, p, hp, rfl⟩
        · exact h.sound s hs
      · exact fun v p _ => Or.inl (insertElement_ne_nil _ _)
  | false =>
      obtain ⟨-, hNone⟩ := hOutcome.failed rfl
      constructor
      · exact h.sound
      · intro v p hGood
        rcases h.ahead v p hGood with hFound | ⟨k, hk, hLe⟩
        · exact Or.inl hFound
        · cases hk
          rcases hLe.eq_or_lt with rfl | hLt
          · exact absurd hGood (hNone p)
          · exact Or.inr (nextKey_le hOutcome.holds hGood hLt)

/-- The loop ends with all good nodes behind it. -/
theorem sumLoop_progress (hTargets : ∀ v, ∀ w ∈ A v, P w) (hHolds : Holds A P edges)
    (hKey : ∀ x, e = some x → P x) (hProgress : Progress A size e ans)
    (h : sumLoop size depth fuel edges e ans = some ans') : Progress A size none ans' := by
  induction fuel generalizing edges e ans with
  | zero => cases h
  | succ fuel ih =>
      cases e with
      | none =>
          cases h
          exact hProgress
      | some x =>
          simp only [sumLoop, Option.bind_eq_bind, Option.bind_eq_some_iff] at h
          obtain ⟨⟨found, result, edges1⟩, hCall, hRest⟩ := h
          have hOutcome := dfs_outcome hTargets hHolds (hKey x rfl) hCall
          apply ih hOutcome.holds _ (hProgress.next hOutcome) hRest
          intro y hy
          obtain ⟨-, l, hMem⟩ := nextKey_eq_some hy
          exact hOutcome.holds.keys _ hMem

/-- The keys increase, so that the loop ends. -/
theorem sumLoop_total (hTargets : ∀ v, ∀ w ∈ A v, P w) (hNodes : ∀ v, P v → v ∈ N)
    (hHolds : Holds A P edges) (hKey : ∀ x, e = some x → P x) (hDepth : N.card < depth)
    (hFuel : (N.filter fun v => ∃ x, e = some x ∧ x ≤ v).card < fuel) :
    ∃ ans', sumLoop size depth fuel edges e ans = some ans' := by
  induction fuel generalizing edges e ans with
  | zero => omega
  | succ fuel ih =>
      cases e with
      | none => exact ⟨ans, rfl⟩
      | some x =>
          have hIndices : (unentered (N.image Node.index) OrderedMap.empty).card < depth :=
            ((Finset.card_filter_le _ _).trans Finset.card_image_le).trans_lt hDepth
          have hTotal : ∃ b R' edges', dfs x size depth edges x .empty = some (b, R', edges') :=
            dfs_total hTargets (fun v hv => Finset.mem_image_of_mem Node.index (hNodes v hv))
              hHolds (hKey x rfl) hIndices
          obtain ⟨b, R', edges1, hCall⟩ := hTotal
          have hNext := (dfs_outcome hTargets hHolds (hKey x rfl) hCall).holds
          simp only [sumLoop, hCall, Option.bind_eq_bind, Option.bind_some]
          apply ih hNext
          · intro y hy
            obtain ⟨-, l, hMem⟩ := nextKey_eq_some hy
            exact hNext.keys _ hMem
          · refine (Finset.card_lt_card ?_).trans_le (Nat.lt_succ_iff.mp hFuel)
            rw [Finset.ssubset_iff_of_subset]
            · refine ⟨x, Finset.mem_filter.mpr ⟨hNodes x (hKey x rfl), x, rfl, le_rfl⟩, ?_⟩
              intro hMem
              obtain ⟨-, y, hy, hLe⟩ := Finset.mem_filter.mp hMem
              exact absurd hLe (nextKey_eq_some hy).1.not_ge
            · intro v hv
              obtain ⟨hMem, y, hy, hLe⟩ := Finset.mem_filter.mp hv
              exact Finset.mem_filter.mpr
                ⟨hMem, x, rfl, (nextKey_eq_some hy).1.le.trans hLe⟩

end Loop

theorem adjacent_add (edges : Edges) (l r v : Node) :
    adjacent (add edges l r) v =
      if v = l then insertElement r (adjacent edges l) else adjacent edges v := by
  rw [add, adjacent]
  split_ifs with hSame
  · rw [hSame, OrderedMap.lookup_set_self]
    rfl
  · rw [OrderedMap.lookup_set_of_ne _ _ hSame, adjacent]

theorem ofEdges_append_singleton (es : List (Node × Node)) (e : Node × Node) :
    ofEdges (es ++ [e]) = add (ofEdges es) e.1 e.2 := by
  rw [ofEdges, List.foldl_append]
  rfl

theorem mem_adjacent_ofEdges : y ∈ adjacent (ofEdges es) x ↔ (x, y) ∈ es := by
  induction es using List.reverseRecOn with
  | nil => simp [ofEdges, adjacent, OrderedMap.empty, OrderedMap.lookup]
  | append_singleton es e ih =>
      rw [ofEdges_append_singleton, adjacent_add, List.mem_append, List.mem_singleton,
        Prod.ext_iff]
      split_ifs with hSame
      · subst hSame
        rw [mem_insertElement, ih]
        simp only [true_and]
        exact or_comm
      · simp [ih, hSame]

theorem mem_keys_ofEdges {k : Node × List Node} (h : k ∈ (ofEdges es).entries) :
    ∃ y, (k.1, y) ∈ es := by
  induction es using List.reverseRecOn with
  | nil => simp [ofEdges, OrderedMap.empty] at h
  | append_singleton es e ih =>
      rw [ofEdges_append_singleton, add, OrderedMap.mem_set] at h
      rcases h with rfl | ⟨hOld, -⟩
      · exact ⟨e.2, by simp⟩
      · obtain ⟨y, hy⟩ := ih hOld
        exact ⟨y, List.mem_append_left _ hy⟩

/-- All nodes of the edges. -/
def nodes (es : List (Node × Node)) : Finset Node := (es.flatMap fun e => [e.1, e.2]).toFinset

theorem mem_nodes (h : (x, y) ∈ es) : x ∈ nodes es ∧ y ∈ nodes es := by
  simp only [nodes, List.mem_toFinset, List.mem_flatMap]
  exact ⟨⟨_, h, by simp⟩, ⟨_, h, by simp⟩⟩

theorem card_nodes_le (es : List (Node × Node)) : (nodes es).card ≤ 2 * es.length := by
  refine (List.toFinset_card_le _).trans ?_
  simp [List.length_flatMap, Nat.mul_comm]

theorem holds_ofEdges (es : List (Node × Node)) :
    Holds (adjacent (ofEdges es)) (· ∈ nodes es) (ofEdges es) := by
  refine ⟨fun v => rfl, fun k hk => ?_⟩
  obtain ⟨y, hy⟩ := mem_keys_ofEdges hk
  exact (mem_nodes hy).1

/-- The cycles through a node are those that the search completes. -/
theorem good_iff : Good (adjacent (ofEdges es)) size x c ↔
    IsCycle es size c ∧ ∃ rest, c = x :: rest := by
  rw [Good, completes_empty_iff]
  simp only [mem_adjacent_ofEdges]
  constructor
  · rintro ⟨hLength, hIndices, hValues, rest, rfl, hChain⟩
    exact ⟨⟨hLength, hIndices, hValues, x, rest, rfl, hChain⟩, rest, rfl⟩
  · rintro ⟨⟨hLength, hIndices, hValues, v, rest, hEq, hChain⟩, rest', rfl⟩
    cases hEq
    exact ⟨hLength, hIndices, hValues, rest, rfl, hChain⟩

/-- The loop ends, with a sum if there is a cycle. -/
theorem sum_cycle_progress (es : List (Node × Node)) (size extra : Nat) :
    ∃ ans, sum_cycle (2 * es.length + 1 + extra) (ofEdges es) size = some ans ∧
      Progress (adjacent (ofEdges es)) size none ans := by
  have hTargets : ∀ v, ∀ w ∈ adjacent (ofEdges es) v, w ∈ nodes es :=
    fun v w hw => (mem_nodes (mem_adjacent_ofEdges.mp hw)).2
  have hKey : ∀ x, (ofEdges es).first.map Prod.fst = some x → x ∈ nodes es := by
    intro x hx
    obtain ⟨k, hFirst, rfl⟩ := Option.map_eq_some_iff.mp hx
    exact (holds_ofEdges es).keys k (OrderedMap.first_eq_some _ hFirst).1
  have hNodes := card_nodes_le es
  have hStart : Progress (adjacent (ofEdges es)) size ((ofEdges es).first.map Prod.fst) [] := by
    refine ⟨by simp, fun v p hGood => Or.inr ?_⟩
    obtain ⟨l, hMem⟩ := (holds_ofEdges es).key_of_good hGood
    cases hFirst : (ofEdges es).first with
    | none => exact absurd hMem ((OrderedMap.first_eq_none_iff _).mp hFirst _)
    | some k =>
        refine ⟨k.1, rfl, ?_⟩
        rcases (OrderedMap.first_eq_some _ hFirst).2 _ hMem with hSame | hLt
        · exact (congrArg Prod.fst hSame).ge
        · exact hLt.le
  obtain ⟨ans, hAns⟩ : ∃ ans, sum_cycle (2 * es.length + 1 + extra) (ofEdges es) size = some ans :=
    sumLoop_total hTargets (fun v hv => hv) (holds_ofEdges es) hKey (by omega)
      ((Finset.card_filter_le _ _).trans_lt (by omega))
  exact ⟨ans, hAns, sumLoop_progress hTargets (holds_ofEdges es) hKey hStart hAns⟩

theorem exists_edge {E : Node → Node → Prop} (h : (c ++ [y]).IsChain E) (hx : x ∈ c) :
    ∃ z, E x z := by
  obtain ⟨a, b, rfl⟩ := List.append_of_mem hx
  rw [List.append_assoc, List.cons_append] at h
  have hRest := h.right_of_append
  cases b with
  | nil => exact ⟨y, (List.isChain_cons_cons.mp hRest).1⟩
  | cons z b => exact ⟨z, (List.isChain_cons_cons.mp hRest).1⟩

/-- The sums are those of cycles, as `int`s, there is one if there is a cycle, and a call that
fails leaves the map as it was, but for the entry of its own node. -/
theorem sum_cycle_spec (es : List (Node × Node)) (size extra : Nat) :
    (∃ ans, sum_cycle (2 * es.length + 1 + extra) (ofEdges es) size = some ans ∧
      (ans ≠ [] ↔ ∃ c, IsCycle es size c) ∧
      ∀ s ∈ ans, ∃ c, IsCycle es size c ∧ s = ((c.map Node.value).sum).bmod (2 ^ 32)) ∧
    ∀ first fuel edges start R R' edges',
      dfs first size fuel edges start R = some (false, R', edges') → R' = left R start := by
  obtain ⟨ans, hAns, hProgress⟩ := sum_cycle_progress es size extra
  have hSound : ∀ s ∈ ans, ∃ c, IsCycle es size c ∧
      s = ((c.map Node.value).sum).bmod (2 ^ 32) := by
    intro s hs
    obtain ⟨v, c, hGood, rfl⟩ := hProgress.sound s hs
    exact ⟨c, (good_iff.mp hGood).1, accumulate_eq hGood.indices⟩
  refine ⟨⟨ans, hAns, ⟨fun hNe => ?_, ?_⟩, hSound⟩, fun _ _ _ _ _ _ _ h => dfs_failed h⟩
  · obtain ⟨s, hs⟩ := List.exists_mem_of_ne_nil ans hNe
    obtain ⟨c, hCycle, -⟩ := hSound s hs
    exact ⟨c, hCycle⟩
  · rintro ⟨c, hCycle⟩
    obtain ⟨v, rest, rfl, hChain⟩ := hCycle.closed
    have hGood := good_iff.mpr ⟨hCycle, rest, rfl⟩
    rcases hProgress.ahead v _ hGood with hFound | ⟨k, hk, -⟩
    · exact hFound
    · cases hk

/-- The sum of two positive `int`s can be negative. -/
theorem not_sum_cycle_spec :
    ¬∀ (es : List (Node × Node)) (size fuel : Nat) (ans : List Int), 1 ≤ size →
      sum_cycle fuel (ofEdges es) size = some ans →
        ∀ s ∈ ans, ∃ c, IsCycle es size c ∧ s = (c.map Node.value).sum := by
  intro hClaim
  have hRun : sum_cycle 5 (ofEdges [(toLex (1, 2 ^ 31 - 1), toLex (2, 1)),
      (toLex (2, 1), toLex (1, 2 ^ 31 - 1))]) 2 = some [-2147483648] := by decide
  obtain ⟨c, hCycle, hSum⟩ := hClaim _ 2 5 _ (by decide) hRun _ List.mem_cons_self
  have hNonneg : 0 ≤ (c.map Node.value).sum := by
    apply List.sum_nonneg
    intro n hn
    obtain ⟨x, hx, rfl⟩ := List.mem_map.mp hn
    obtain ⟨v, rest, hEq, hChain⟩ := hCycle.closed
    obtain ⟨z, hz⟩ := exists_edge hChain hx
    simp only [List.mem_cons, Prod.mk.injEq, List.not_mem_nil, or_false] at hz
    rcases hz with ⟨rfl, -⟩ | ⟨rfl, -⟩ <;> decide
  omega

end Cycle_Finder

end CppPerf.Graphs
