import CppPerf.Graphs.UnionFindConnected
import CppPerf.Semantics.Vec
import Mathlib.Algebra.BigOperators.Ring.Finset
import Mathlib.Data.Nat.PSub
import Mathlib.Tactic.Linarith
import Mathlib.Tactic.Ring

/-! The component sizes of an undirected graph by depth-first search, and the
number of pairs that a list of sizes stands for. A search that is called more
often than there are nodes, each call within the last, visits one of them twice.
A breadth-first search takes no more rounds than there are nodes. -/
namespace CppPerf.Graphs

open Indexed

structure GraphUnweighted where
  adjList : Vec (List Nat)

namespace GraphUnweighted

def construct (N : Nat) : GraphUnweighted := ⟨⟨N, fun _ => []⟩⟩

variable (g : GraphUnweighted)

def push_back (u v : Nat) : Option GraphUnweighted :=
  if u < g.adjList.size then some ⟨g.adjList.set u (g.adjList.get u ++ [v])⟩ else none

/-- The nodes of the edges are counted from `base`. -/
def undirectEdges (g : GraphUnweighted) (base : Nat) : List (Nat × Nat) → Option GraphUnweighted
  | [] => some g
  | e :: rest =>
      (e.1.psub base).bind fun u =>
        (e.2.psub base).bind fun v =>
          (g.push_back u v).bind fun g =>
            (g.push_back v u).bind fun g => undirectEdges g base rest

/-- One round of the loop over the neighbours of the first node in the queue. -/
def bfsEdge (front : Nat) (acc : Vec Int × List Nat) (v : Nat) : Option (Vec Int × List Nat) :=
  let (weight, q) := acc
  if v < weight.size then
    if weight.get v = -1 then some (weight.set v (weight.get front + 1), q ++ [v])
    else some (weight, q)
  else none

def bfsLoop : (rounds : Nat) → Vec Int → List Nat → Option (Vec Int)
  | 0, _, _ => none
  | _ + 1, weight, [] => some weight
  | rounds + 1, weight, front :: q =>
      ((g.adjList.get front).foldlM (bfsEdge front) (weight, front :: q)).bind
        fun (weight, q) => bfsLoop rounds weight q.tail

def bfs (s : Nat) : Option (Vec Int) :=
  let weight : Vec Int := ⟨g.adjList.size, fun _ => -1⟩
  if s < weight.size then g.bfsLoop (g.adjList.size + 1) (weight.set s 0) [s] else none

/-- The nodes that the search from `s` visits, and the marks it leaves. -/
def dfs_count : Nat → Nat → Vec Bool → Option (Nat × Vec Bool)
  | 0, _, _ => none
  | calls + 1, s, visited =>
      if s < visited.size then
        if visited.get s then some (0, visited)
        else
          ((g.adjList.get s).foldlM (fun acc v =>
            (dfs_count calls v acc.2).map fun r => (acc.1 + r.1, r.2))
            (0, visited.set s true)).map fun r => (r.1 + 1, r.2)
      else none

def componentLoop : Nat → Nat → List Nat → Vec Bool → Option (List Nat)
  | 0, _, components, _ => some components
  | rounds + 1, u, components, visited =>
      if visited.get u then componentLoop rounds (u + 1) components visited
      else
        (g.dfs_count (g.adjList.size + 1) u visited).bind fun r =>
          componentLoop rounds (u + 1) (components ++ [r.1]) r.2

def component_size : Option (List Nat) :=
  g.componentLoop g.adjList.size 0 [] ⟨g.adjList.size, fun _ => false⟩

end GraphUnweighted

/-- The rounds from the component after `previous` on. -/
def multiplyLoop (total prefix_sum previous : Int) : List Int → Int
  | [] => total
  | component :: rest =>
      let prefix_sum := prefix_sum + previous
      multiplyLoop (total + prefix_sum * component) prefix_sum component rest

def pairwise_multiply : List Int → Int
  | [] => 0
  | first :: rest => multiplyLoop 0 0 first rest

end CppPerf.Graphs

/-! The search and the union-find measure the same components. A set of nodes
that the search has left with no neighbour outside consists of components. -/
namespace CppPerf.Graphs

open Indexed Partition Transition

section Pairs

theorem multiplyLoop_spec (total prefix_sum previous : Int) (rest : List Int) :
    2 * multiplyLoop total prefix_sum previous rest + (rest.map fun s => s * s).sum +
        (prefix_sum + previous) * (prefix_sum + previous) =
      2 * total + (prefix_sum + previous + rest.sum) * (prefix_sum + previous + rest.sum) := by
  induction rest generalizing total prefix_sum previous with
  | nil =>
      rw [multiplyLoop, List.map_nil, List.sum_nil]
      ring
  | cons component rest ih =>
      have hRest := ih (total + (prefix_sum + previous) * component) (prefix_sum + previous)
        component
      rw [multiplyLoop, List.map_cons, List.sum_cons, List.sum_cons]
      linarith

/-- Twice the product of all pairs, and the squares. -/
theorem pairwise_multiply_spec (components : List Int) :
    2 * pairwise_multiply components + (components.map fun s => s * s).sum =
      components.sum * components.sum := by
  cases components with
  | nil => rfl
  | cons first rest =>
      have hLoop := multiplyLoop_spec 0 0 first rest
      rw [pairwise_multiply, List.map_cons, List.sum_cons, List.sum_cons]
      linarith

/-- The product counts the pairs in different components, in whatever order the sizes are. -/
theorem pairwise_multiply_eq {nodes : Finset Nat} {rep : Nat → Nat} {edges : List (Nat × Nat)}
    (h : Represents rep edges) (hNodes : ∀ a ∈ nodes, rep a ∈ nodes) {sizes : List Nat}
    (hSizes : (sizes : Multiset Nat) = classSizes nodes edges) :
    pairwise_multiply (sizes.map Nat.cast) = (separatedPairs nodes edges).card := by
  have hPairs := two_mul_card_separatedPairs h hNodes
  have hSum := h.sum_classSizes hNodes
  rw [← hSizes, Multiset.map_coe, Multiset.sum_coe] at hPairs
  rw [← hSizes, Multiset.sum_coe] at hSum
  have hSpec := pairwise_multiply_spec (sizes.map Nat.cast)
  have hSquares : (((sizes.map Nat.cast).map fun s : Int => s * s)).sum =
      ((sizes.map fun s => s * s).sum : Nat) := by
    rw [List.map_map, Nat.cast_list_sum, List.map_map]
    exact congrArg List.sum (List.map_congr_left fun s _ => (Nat.cast_mul s s).symm)
  rw [hSquares, ← Nat.cast_list_sum, hSum] at hSpec
  have hPairs := congrArg (Nat.cast (R := Int)) hPairs
  push_cast at hPairs hSpec
  linarith

end Pairs

namespace GraphUnweighted

/-- The marked nodes. -/
def marked (visited : Vec Bool) : Finset Nat :=
  (Finset.range visited.size).filter fun u => visited.get u = true

theorem mem_marked {visited : Vec Bool} {u : Nat} :
    u ∈ marked visited ↔ u < visited.size ∧ visited.get u = true := by
  rw [marked, Finset.mem_filter, Finset.mem_range]

theorem marked_set {visited : Vec Bool} {s : Nat} (hs : s < visited.size) :
    marked (visited.set s true) = insert s (marked visited) := by
  ext u
  rw [Finset.mem_insert, mem_marked, mem_marked, Vec.get_set, Vec.size_set]
  split_ifs with hEq
  · exact iff_of_true ⟨hEq ▸ hs, rfl⟩ (Or.inl hEq)
  · exact (or_iff_right hEq).symm

theorem card_marked_le (visited : Vec Bool) : (marked visited).card ≤ visited.size := by
  rw [← Finset.card_range visited.size]
  exact Finset.card_le_card (Finset.filter_subset _ _)

/-- The lists hold the other ends of the edges at each node. -/
structure Joins (g : GraphUnweighted) (N : Nat) (edges : List (Nat × Nat)) : Prop where
  size_adjList : g.adjList.size = N
  mem_iff : ∀ u v, v ∈ g.adjList.get u ↔ (u, v) ∈ edges ∨ (v, u) ∈ edges

theorem push_back_spec {g : GraphUnweighted} {u : Nat} (hu : u < g.adjList.size) (v : Nat) :
    ∃ g', g.push_back u v = some g' ∧ g'.adjList.size = g.adjList.size ∧
      ∀ a b, b ∈ g'.adjList.get a ↔ b ∈ g.adjList.get a ∨ (a, b) = (u, v) := by
  refine ⟨_, if_pos hu, rfl, fun a b => ?_⟩
  rw [Vec.get_set, Prod.mk.injEq]
  split_ifs with hEq
  · rw [hEq, List.mem_append, List.mem_singleton]
    tauto
  · tauto

theorem undirectEdges_spec {N : Nat} {edges : List (Nat × Nat)}
    (hEdges : ∀ e ∈ edges, e.1 ∈ Finset.range N ∧ e.2 ∈ Finset.range N) {g : GraphUnweighted}
    (hSize : g.adjList.size = N) :
    ∃ g', g.undirectEdges 0 edges = some g' ∧ g'.adjList.size = N ∧
      ∀ a b, b ∈ g'.adjList.get a ↔
        b ∈ g.adjList.get a ∨ (a, b) ∈ edges ∨ (b, a) ∈ edges := by
  induction edges generalizing g with
  | nil => exact ⟨g, rfl, hSize, fun a b => by simp⟩
  | cons e rest ih =>
      obtain ⟨u, v⟩ := e
      obtain ⟨hu, hv⟩ := hEdges (u, v) List.mem_cons_self
      rw [Finset.mem_range, ← hSize] at hu hv
      obtain ⟨there, hThere, hSizeThere, hMemThere⟩ := push_back_spec hu v
      obtain ⟨back, hBack, hSizeBack, hMemBack⟩ := push_back_spec (hSizeThere.symm ▸ hv) u
      obtain ⟨g', hRun, hSize', hMem⟩ := ih (fun e he => hEdges e (List.mem_cons_of_mem _ he))
        (hSizeBack.trans (hSizeThere.trans hSize))
      refine ⟨g', ?_, hSize', fun a b => ?_⟩
      · rw [undirectEdges, Nat.psub, Option.bind_some, Nat.psub, Option.bind_some, hThere,
          Option.bind_some, hBack, Option.bind_some]
        exact hRun
      · rw [hMem, hMemBack, hMemThere, List.mem_cons, List.mem_cons, Prod.mk.injEq, Prod.mk.injEq,
          Prod.mk.injEq]
        tauto

theorem undirectEdges_joins {N : Nat} {edges : List (Nat × Nat)}
    (hEdges : ∀ e ∈ edges, e.1 ∈ Finset.range N ∧ e.2 ∈ Finset.range N) :
    ∃ g, (construct N).undirectEdges 0 edges = some g ∧ Joins g N edges := by
  obtain ⟨g, hRun, hSize, hMem⟩ := undirectEdges_spec (g := construct N) hEdges rfl
  refine ⟨g, hRun, hSize, fun a b => (hMem a b).trans ?_⟩
  exact or_iff_right List.not_mem_nil

section Search

variable {g : GraphUnweighted} {N : Nat} {edges : List (Nat × Nat)} {rep : Nat → Nat}

/-- From the old marks to the new ones: every new node is in the component that `r` represents,
and its neighbours are marked. -/
structure Explores (g : GraphUnweighted) (rep : Nat → Nat) (r : Nat) (old new : Finset Nat) :
    Prop where
  subset : old ⊆ new
  rep_eq : ∀ a ∈ new, a ∉ old → rep a = r
  closed : ∀ a ∈ new, a ∉ old → ∀ b ∈ g.adjList.get a, b ∈ new

theorem Explores.refl (r : Nat) (old : Finset Nat) : Explores g rep r old old where
  subset := Finset.Subset.refl old
  rep_eq _ ha hNot := absurd ha hNot
  closed _ ha hNot := absurd ha hNot

theorem Explores.trans {r : Nat} {old mid new : Finset Nat} (h : Explores g rep r old mid)
    (h' : Explores g rep r mid new) : Explores g rep r old new where
  subset := h.subset.trans h'.subset
  rep_eq a ha hNot := by
    by_cases hMid : a ∈ mid
    · exact h.rep_eq a hMid hNot
    · exact h'.rep_eq a ha hMid
  closed a ha hNot := by
    by_cases hMid : a ∈ mid
    · exact fun b hb => h'.subset (h.closed a hMid hNot b hb)
    · exact h'.closed a ha hMid

/-- The marks that one search leaves, and its count. -/
def Visits (g : GraphUnweighted) (rep : Nat → Nat) (N : Nat) (s : Nat) (visited : Vec Bool)
    (r : Nat × Vec Bool) : Prop :=
  r.2.size = N ∧ s ∈ marked r.2 ∧ Explores g rep (rep s) (marked visited) (marked r.2) ∧
    r.1 + (marked visited).card = (marked r.2).card

/-- The loop over the neighbours of `s`, given that each search within it visits. -/
theorem neighbours_spec {calls s : Nat}
    (hSearch : ∀ v visited, visited.size = N → v < N → N < calls + (marked visited).card →
      ∃ r, g.dfs_count calls v visited = some r ∧ Visits g rep N v visited r)
    {l : List Nat} (hl : ∀ v ∈ l, v < N ∧ rep v = rep s) (acc : Nat × Vec Bool)
    (hSize : acc.2.size = N) (hCalls : N < calls + (marked acc.2).card) :
    ∃ r, l.foldlM (fun acc v =>
        (g.dfs_count calls v acc.2).map fun r => (acc.1 + r.1, r.2)) acc = some r ∧
      r.2.size = N ∧ (∀ v ∈ l, v ∈ marked r.2) ∧
      Explores g rep (rep s) (marked acc.2) (marked r.2) ∧
      r.1 + (marked acc.2).card = acc.1 + (marked r.2).card := by
  induction l generalizing acc with
  | nil => exact ⟨acc, rfl, hSize, fun v hv => absurd hv List.not_mem_nil, Explores.refl _ _, rfl⟩
  | cons v rest ih =>
      obtain ⟨hv, hRep⟩ := hl v List.mem_cons_self
      obtain ⟨one, hRun, hOne, hMem, hExplores, hCount⟩ := hSearch v acc.2 hSize hv hCalls
      have hGrows := Finset.card_le_card hExplores.subset
      obtain ⟨r, hRest, hEnd, hMems, hMore, hSum⟩ :=
        ih (fun v hv => hl v (List.mem_cons_of_mem _ hv)) (acc.1 + one.1, one.2) hOne
          (by dsimp only; omega)
      dsimp only at hMore hSum
      refine ⟨r, ?_, hEnd, ?_, (hRep ▸ hExplores).trans hMore, by omega⟩
      · rw [List.foldlM_cons, hRun]
        exact hRest
      · intro w hw
        rcases List.mem_cons.mp hw with rfl | hw
        · exact hMore.subset hMem
        · exact hMems w hw

theorem dfs_count_spec (hJoins : Joins g N edges) (h : Represents rep edges)
    (hEdges : ∀ e ∈ edges, e.1 ∈ Finset.range N ∧ e.2 ∈ Finset.range N) {calls s : Nat}
    {visited : Vec Bool} (hSize : visited.size = N) (hs : s < N)
    (hCalls : N < calls + (marked visited).card) :
    ∃ r, g.dfs_count calls s visited = some r ∧ Visits g rep N s visited r := by
  induction calls generalizing s visited with
  | zero =>
      have hLe := card_marked_le visited
      omega
  | succ calls ih =>
      rw [dfs_count, if_pos (hSize ▸ hs)]
      by_cases hVisited : visited.get s = true
      · have hMem : s ∈ marked visited := mem_marked.mpr ⟨hSize ▸ hs, hVisited⟩
        rw [if_pos hVisited]
        exact ⟨_, rfl, hSize, hMem, Explores.refl _ _, Nat.zero_add _⟩
      · have hNew : s ∉ marked visited := fun hMem => hVisited (mem_marked.mp hMem).2
        have hMark := marked_set (hSize.symm ▸ hs : s < visited.size)
        have hCard : (marked (visited.set s true)).card = (marked visited).card + 1 := by
          rw [hMark, Finset.card_insert_of_notMem hNew]
        have hNeighbours : ∀ v ∈ g.adjList.get s, v < N ∧ rep v = rep s := by
          intro v hv
          rcases (hJoins.mem_iff s v).mp hv with hEdge | hEdge
          · exact ⟨Finset.mem_range.mp (hEdges _ hEdge).2,
              ((h.eq_iff s v).mpr (Connected.of_mem hEdge)).symm⟩
          · exact ⟨Finset.mem_range.mp (hEdges _ hEdge).1,
              (h.eq_iff v s).mpr (Connected.of_mem hEdge)⟩
        obtain ⟨r, hRun, hEnd, hMems, hExplores, hCount⟩ :=
          neighbours_spec (fun v visited hSize hv hCalls => ih hSize hv hCalls) hNeighbours
            (0, visited.set s true) hSize (by dsimp only; omega)
        rw [if_neg hVisited, hRun]
        dsimp only at hExplores hCount
        have hSelf : s ∈ marked r.2 := hExplores.subset (hMark ▸ Finset.mem_insert_self _ _)
        refine ⟨_, rfl, hEnd, hSelf, ⟨?_, fun a ha hNot => ?_, fun a ha hNot => ?_⟩, ?_⟩
        · exact (Finset.subset_insert s _).trans (hMark ▸ hExplores.subset)
        · by_cases hEq : a = s
          · rw [hEq]
          · exact hExplores.rep_eq a ha (by rw [hMark, Finset.mem_insert]; tauto)
        · by_cases hEq : a = s
          · rw [hEq]
            exact hMems
          · exact hExplores.closed a ha (by rw [hMark, Finset.mem_insert]; tauto)
        · dsimp only
          omega

/-- The nodes of the components found. -/
def reached (N : Nat) (rep : Nat → Nat) (found : List Nat) : Finset Nat :=
  (Finset.range N).filter fun a => rep a ∈ found

theorem mem_reached {found : List Nat} {a : Nat} :
    a ∈ reached N rep found ↔ a < N ∧ rep a ∈ found := by
  rw [reached, Finset.mem_filter, Finset.mem_range]

theorem card_reached {found : List Nat} {r : Nat} (hNew : r ∉ found) :
    (reached N rep (found ++ [r])).card =
      (members (Finset.range N) rep r).card + (reached N rep found).card := by
  rw [← Finset.card_union_of_disjoint]
  · congr 1
    ext a
    rw [Finset.mem_union, mem_members, mem_reached, mem_reached, List.mem_append,
      List.mem_singleton, Finset.mem_range]
    tauto
  · refine Finset.disjoint_left.mpr fun a ha hOld => hNew ?_
    exact (mem_members.mp ha).2 ▸ (mem_reached.mp hOld).2

/-- A search that starts outside the components found visits one more component. -/
theorem marked_eq (hJoins : Joins g N edges) (h : Represents rep edges)
    (hEdges : ∀ e ∈ edges, e.1 ∈ Finset.range N ∧ e.2 ∈ Finset.range N) {u : Nat}
    {visited : Vec Bool} {found : List Nat} {r : Nat × Vec Bool}
    (hOld : marked visited = reached N rep found) (hVisits : Visits g rep N u visited r) :
    marked r.2 = reached N rep (found ++ [rep u]) := by
  obtain ⟨hSize, hSelf, hExplores, -⟩ := hVisits
  rw [hOld] at hExplores
  have hClosed : ∀ x y, y ∈ Finset.range N → x ∈ marked r.2 →
      (x, y) ∈ edges ∨ (y, x) ∈ edges → y ∈ marked r.2 := by
    intro x y hy hx hEdge
    by_cases hFound : x ∈ reached N rep found
    · have hSame : rep y = rep x := by
        rcases hEdge with hEdge | hEdge
        · exact ((h.eq_iff x y).mpr (Connected.of_mem hEdge)).symm
        · exact (h.eq_iff y x).mpr (Connected.of_mem hEdge)
      exact hExplores.subset (mem_reached.mpr
        ⟨Finset.mem_range.mp hy, hSame ▸ (mem_reached.mp hFound).2⟩)
    · exact hExplores.closed x hx hFound y ((hJoins.mem_iff x y).mpr hEdge)
  ext a
  rw [mem_reached, List.mem_append, List.mem_singleton]
  constructor
  · intro ha
    refine ⟨hSize ▸ (mem_marked.mp ha).1, ?_⟩
    by_cases hFound : a ∈ reached N rep found
    · exact Or.inl (mem_reached.mp hFound).2
    · exact Or.inr (hExplores.rep_eq a ha hFound)
  · rintro ⟨ha, hFound | hSame⟩
    · exact hExplores.subset (mem_reached.mpr ⟨ha, hFound⟩)
    · have hEnds : ∀ x y, (x, y) ∈ edges → (x ∈ marked r.2 ↔ y ∈ marked r.2) := fun x y hEdge =>
        ⟨fun hx => hClosed x y (hEdges _ hEdge).2 hx (Or.inl hEdge),
          fun hy => hClosed y x (hEdges _ hEdge).1 hy (Or.inr hEdge)⟩
      exact (((h.eq_iff u a).mp hSame.symm).congr hEnds).mp hSelf

/-- The nodes before `u` have been searched from, and one head was found in each component. -/
structure Searched (N : Nat) (rep : Nat → Nat) (u : Nat) (found : List Nat)
    (visited : Vec Bool) : Prop where
  size_visited : visited.size = N
  marked_eq : marked visited = reached N rep found
  nodup : found.Nodup
  found_heads : ∀ r ∈ found, r ∈ heads (Finset.range N) rep
  seen : ∀ v < u, rep v ∈ found

namespace Searched

variable {u : Nat} {found : List Nat} {visited : Vec Bool}

theorem start (N : Nat) (rep : Nat → Nat) : Searched N rep 0 [] ⟨N, fun _ => false⟩ where
  size_visited := rfl
  marked_eq := by
    ext a
    simp [mem_marked, mem_reached]
  nodup := List.nodup_nil
  found_heads _ hr := absurd hr List.not_mem_nil
  seen v hv := absurd hv (Nat.not_lt_zero v)

theorem get_iff (h : Searched N rep u found visited) (hu : u < N) :
    visited.get u = true ↔ rep u ∈ found := by
  have hMem : u ∈ marked visited ↔ u ∈ reached N rep found := by rw [h.marked_eq]
  rw [mem_marked, mem_reached, h.size_visited] at hMem
  exact ⟨fun hGet => (hMem.mp ⟨hu, hGet⟩).2, fun hFound => (hMem.mpr ⟨hu, hFound⟩).2⟩

theorem skip (h : Searched N rep u found visited) (hFound : rep u ∈ found) :
    Searched N rep (u + 1) found visited where
  size_visited := h.size_visited
  marked_eq := h.marked_eq
  nodup := h.nodup
  found_heads := h.found_heads
  seen v hv := by
    rcases Nat.lt_succ_iff_lt_or_eq.mp hv with hOld | rfl
    · exact h.seen v hOld
    · exact hFound

theorem search (h : Searched N rep u found visited) (hJoins : Joins g N edges)
    (hRep : Represents rep edges)
    (hEdges : ∀ e ∈ edges, e.1 ∈ Finset.range N ∧ e.2 ∈ Finset.range N)
    (hHead : rep u ∈ heads (Finset.range N) rep) (hNew : rep u ∉ found) {r : Nat × Vec Bool}
    (hVisits : Visits g rep N u visited r) :
    Searched N rep (u + 1) (found ++ [rep u]) r.2 where
  size_visited := hVisits.1
  marked_eq := GraphUnweighted.marked_eq hJoins hRep hEdges h.marked_eq hVisits
  nodup := List.nodup_append.mpr ⟨h.nodup, List.nodup_singleton _, fun a ha b hb hEq =>
    hNew (List.mem_singleton.mp hb ▸ hEq ▸ ha)⟩
  found_heads a ha := by
    rcases List.mem_append.mp ha with hOld | hLast
    · exact h.found_heads a hOld
    · exact List.mem_singleton.mp hLast ▸ hHead
  seen v hv := by
    rcases Nat.lt_succ_iff_lt_or_eq.mp hv with hOld | rfl
    · exact List.mem_append_left _ (h.seen v hOld)
    · exact List.mem_append_right _ (List.mem_singleton_self _)

theorem coe_eq (h : Searched N rep N found visited) :
    (found : Multiset Nat) = (heads (Finset.range N) rep).val := by
  refine (Multiset.Nodup.ext (Multiset.coe_nodup.mpr h.nodup) (heads _ rep).nodup).mpr fun r =>
    ⟨h.found_heads r, fun hr => ?_⟩
  obtain ⟨hNode, hRep⟩ := mem_heads.mp (Finset.mem_val.mp hr)
  exact hRep ▸ h.seen r (Finset.mem_range.mp hNode)

end Searched

theorem componentLoop_spec (hJoins : Joins g N edges) (hRep : Represents rep edges)
    (hEdges : ∀ e ∈ edges, e.1 ∈ Finset.range N ∧ e.2 ∈ Finset.range N)
    (hNodes : ∀ a ∈ Finset.range N, rep a ∈ Finset.range N) {rounds u : Nat}
    (hRounds : u + rounds = N) {found : List Nat} {visited : Vec Bool}
    (h : Searched N rep u found visited) :
    ∃ all : List Nat, g.componentLoop rounds u
        (found.map fun r => (members (Finset.range N) rep r).card) visited =
          some (all.map fun r => (members (Finset.range N) rep r).card) ∧
      (all : Multiset Nat) = (heads (Finset.range N) rep).val := by
  induction rounds generalizing u found visited with
  | zero =>
      obtain rfl : u = N := hRounds
      exact ⟨found, rfl, h.coe_eq⟩
  | succ rounds ih =>
      have hu : u < N := by omega
      rw [componentLoop]
      by_cases hVisited : visited.get u = true
      · rw [if_pos hVisited]
        exact ih (by omega) (h.skip ((h.get_iff hu).mp hVisited))
      · have hNew : rep u ∉ found := fun hFound => hVisited ((h.get_iff hu).mpr hFound)
        have hHead : rep u ∈ heads (Finset.range N) rep :=
          mem_heads.mpr ⟨hNodes u (Finset.mem_range.mpr hu), hRep.idem u⟩
        have hCalls : N < g.adjList.size + 1 + (marked visited).card := by
          rw [hJoins.size_adjList]
          omega
        obtain ⟨r, hRun, hVisits⟩ :=
          dfs_count_spec hJoins hRep hEdges h.size_visited hu hCalls
        have hNext := h.search hJoins hRep hEdges hHead hNew hVisits
        -- the count is what the component adds to the marks
        have hCount := hVisits.2.2.2
        rw [hNext.marked_eq, h.marked_eq, card_reached hNew] at hCount
        rw [if_neg hVisited, hRun, Option.bind_some, Nat.add_right_cancel hCount]
        have hRest := ih (by omega) hNext
        rw [List.map_append] at hRest
        exact hRest

theorem component_size_spec (hJoins : Joins g N edges) (h : Represents rep edges)
    (hEdges : ∀ e ∈ edges, e.1 ∈ Finset.range N ∧ e.2 ∈ Finset.range N)
    (hNodes : ∀ a ∈ Finset.range N, rep a ∈ Finset.range N) :
    ∃ sizes : List Nat, g.component_size = some sizes ∧
      (sizes : Multiset Nat) = classSizes (Finset.range N) edges := by
  obtain ⟨all, hRun, hAll⟩ := componentLoop_spec hJoins h hEdges hNodes (Nat.zero_add N)
    (Searched.start N rep)
  refine ⟨_, (by rw [component_size, hJoins.size_adjList]; exact hRun), ?_⟩
  rw [← Multiset.map_coe, hAll, h.classSizes_eq hNodes]

end Search
end GraphUnweighted

/-- The two lists of sizes are the same up to their order, and count the same pairs. -/
theorem component_sizes_agree (N : Nat) {edges : List (Nat × Nat)}
    (hEdges : ∀ e ∈ edges, e.1 ∈ Finset.range N ∧ e.2 ∈ Finset.range N) :
    ∃ g sizes uf, (GraphUnweighted.construct N).undirectEdges 0 edges = some g ∧
      g.component_size = some sizes ∧ run UnionFind3.step (.construct N) edges = some uf ∧
      sizes.Perm uf.get_components ∧ sizes.sum = N ∧ uf.get_components.sum = N ∧
      pairwise_multiply (sizes.map Nat.cast) =
        (separatedPairs (Finset.range N) edges).card ∧
      pairwise_multiply (uf.get_components.map Nat.cast) =
        (separatedPairs (Finset.range N) edges).card := by
  obtain ⟨uf, hRun, rep, hSound⟩ := run_sound UnionFind3.connect (UnionFind3.construct_sound N)
    (fun _ _ _ h _ hu _ hv => h.connect hu hv) hEdges
  obtain ⟨links, hTracks⟩ := hSound.tracks
  have h := hTracks.represents
  have hNodes : ∀ a ∈ Finset.range N, rep a ∈ Finset.range N := fun a ha => hTracks.rep_mem ha
  have hComponents := hSound.get_components_eq
  obtain ⟨g, hGraph, hJoins⟩ := GraphUnweighted.undirectEdges_joins hEdges
  obtain ⟨sizes, hSizes, hClasses⟩ := GraphUnweighted.component_size_spec hJoins h hEdges hNodes
  have hSum : ∀ l : List Nat, (l : Multiset Nat) = classSizes (Finset.range N) edges →
      l.sum = N := by
    intro l hl
    rw [← Multiset.sum_coe, hl, h.sum_classSizes hNodes, Finset.card_range]
  have hPerm := Multiset.coe_eq_coe.mp (hClasses.trans hComponents.symm)
  exact ⟨g, sizes, uf, hGraph, hSizes, hRun, hPerm, hSum _ hClasses, hSum _ hComponents,
    pairwise_multiply_eq h hNodes hClasses, pairwise_multiply_eq h hNodes hComponents⟩

theorem component_sizes_agree_edge :
    ∃ g sizes uf, (GraphUnweighted.construct 3).undirectEdges 0 [(0, 1)] = some g ∧
      g.component_size = some sizes ∧ run UnionFind3.step (.construct 3) [(0, 1)] = some uf ∧
      sizes.Perm uf.get_components ∧ sizes.sum = 3 := by
  obtain ⟨g, sizes, uf, hGraph, hSizes, hRun, hPerm, hSum, -⟩ :=
    component_sizes_agree 3 (show ∀ e ∈ [(0, 1)], e.1 ∈ Finset.range 3 ∧ e.2 ∈ Finset.range 3 by
      simp)
  exact ⟨g, sizes, uf, hGraph, hSizes, hRun, hPerm, hSum⟩

end CppPerf.Graphs
