import CppPerf.Semantics.DepthFirst
import Mathlib.Data.Finset.Erase
import Mathlib.Data.Finset.Insert
import Mathlib.Logic.Function.Basic

/-! `GraphPath` of `Graph.h`: the number of paths to a destination, by depth-first
search with a memo. The sum over the edges of a node is a `long long`, which is
taken to be large enough. -/
namespace CppPerf.Graphs

/-- `ways` is negative where nothing is stored. -/
structure GraphPath (N : Nat) where
  adjList : Fin N → List (Fin N)
  ways : Fin N → Int
  infinite : Bool := false

namespace GraphPath

variable {N : Nat}

def construct (N : Nat) : GraphPath N where
  adjList _ := []
  ways _ := -1

def add_edge_direct (g : GraphPath N) (u v : Fin N) : GraphPath N :=
  { g with adjList := Function.update g.adjList u (g.adjList u ++ [v]) }

/-- A fresh graph with the edges added one after the other. -/
def ofEdges (edges : List (Fin N × Fin N)) : GraphPath N :=
  edges.foldl (fun g e => g.add_edge_direct e.1 e.2) (construct N)

/-- The graph and `nodes_in_path`, which is passed by reference. -/
abbrev Search (N : Nat) := GraphPath N × Finset (Fin N)

/-- One round of the loop over the edges: `cycle`, `count` and what a call changes. -/
def edgeStep (call : Fin N → Search N → Option (Int × Search N))
    (acc : Bool × Int × Search N) (v : Fin N) : Option (Bool × Int × Search N) := do
  let (cycle, count, s) := acc
  let (result, s) ← call v s
  if result < 0 then return (true, count, s) else return (cycle, count + result, s)

/-- `fuel` bounds the depth of the recursion. -/
def countPaths (dest : Fin N) : (fuel : Nat) → Fin N → Search N → Option (Int × Search N)
  | 0, _, _ => none
  | fuel + 1, u, (g, nodes_in_path) =>
      if u = dest then some (1, g, nodes_in_path)
      else if 0 ≤ g.ways u then some (g.ways u, g, nodes_in_path)
      else if u ∈ nodes_in_path then some (-1, g, nodes_in_path)
      else do
        let (cycle, count, g, nodes_in_path) ← (g.adjList u).foldlM
          (edgeStep (countPaths dest fuel)) (false, 0, g, insert u nodes_in_path)
        let nodes_in_path := nodes_in_path.erase u
        let infinite := if cycle ∧ 0 < count then true else g.infinite
        let ways := Function.update g.ways u (count % 1000000000)
        return (ways u, { g with ways := ways, infinite := infinite }, nodes_in_path)

end GraphPath
end CppPerf.Graphs

/-! `countPaths` follows the order of the depth-first search. It reports a cycle only
if a path was found at the node where the cycle closes. -/
namespace CppPerf.Graphs.GraphPath

open Walks DepthFirst

variable {N : Nat} {adj : Fin N → List (Fin N)} {dest root u : Fin N} {path : Finset (Fin N)}
  {done : List (Fin N)} {s : Search N}

/-- The memo and the flag after the nodes of `done` were left. -/
structure Matches (adj : Fin N → List (Fin N)) (dest : Fin N) (path : Finset (Fin N))
    (done : List (Fin N)) (s : Search N) : Prop where
  adjList : s.1.adjList = adj
  nodes_in_path : s.2 = path
  ways : ∀ x, s.1.ways x = if x ∈ done then ↑(routes adj dest done x % 1000000000) else -1
  infinite : s.1.infinite = true ↔ Noticed adj dest 1000000000 done

/-- What a call returns for a node. -/
def outcome (adj : Fin N → List (Fin N)) (dest : Fin N) (done : List (Fin N)) (x : Fin N) : Int :=
  if x = dest ∨ x ∈ done then ↑(routes adj dest done x % 1000000000) else -1

theorem outcome_neg_iff {x : Fin N} : outcome adj dest done x < 0 ↔ x ≠ dest ∧ x ∉ done := by
  rw [outcome]
  split_ifs with h
  · refine iff_of_false (by omega) fun hNot => ?_
    exact h.elim hNot.1 hNot.2
  · exact iff_of_true (by decide) (not_or.mp h)

/-- It does not change later. -/
theorem outcome_visited {done' : List (Fin N)} {x : Fin N} (h : Finished adj dest root path done)
    (hVisited : Visited adj dest root path done done') (hKnown : x = dest ∨ x ∈ done ∨ x ∈ path) :
    outcome adj dest done' x = outcome adj dest done x := by
  have hFinished := hVisited.finished
  by_cases hDest : x = dest
  · rw [outcome, outcome, if_pos (Or.inl hDest), if_pos (Or.inl hDest), hDest,
      routes_dest hFinished.dest_notMem, routes_dest h.dest_notMem]
  · by_cases hDone : x ∈ done
    · rw [outcome, outcome, if_pos (Or.inr hDone),
        if_pos (Or.inr (hVisited.suffix.subset hDone)),
        routes_suffix hVisited.suffix hFinished.nodup hDone]
    · have hPath : x ∈ path := (hKnown.resolve_left hDest).resolve_left hDone
      rw [outcome, outcome, if_neg (not_or.mpr ⟨hDest, hDone⟩),
        if_neg (not_or.mpr ⟨hDest, hFinished.apart x hPath⟩)]

theorem countPaths_known (h : Finished adj dest root path done) (hs : Matches adj dest path done s)
    (hKnown : u = dest ∨ u ∈ done ∨ u ∈ path) (fuel : Nat) :
    countPaths dest (fuel + 1) u s = some (outcome adj dest done u, s) := by
  obtain ⟨g, nodes_in_path⟩ := s
  have hWays := hs.ways u
  simp only at hWays
  rw [countPaths, outcome]
  by_cases hDest : u = dest
  · rw [if_pos hDest, if_pos (Or.inl hDest), hDest, routes_dest h.dest_notMem]
    rfl
  · rw [if_neg hDest]
    by_cases hDone : u ∈ done
    · rw [if_pos hDone] at hWays
      rw [if_pos (by omega), if_pos (Or.inr hDone), hWays]
    · have hPath : u ∈ path := (hKnown.resolve_left hDest).resolve_left hDone
      rw [if_neg hDone] at hWays
      rw [← hs.nodes_in_path] at hPath
      rw [if_neg (by omega), if_pos hPath, if_neg (not_or.mpr ⟨hDest, hDone⟩)]

theorem edgeStep_eq {call : Fin N → Search N → Option (Int × Search N)} {y : Fin N}
    {result : Int} {s' : Search N} (hCall : call y s = some (result, s')) (cycle : Bool)
    (count : Int) : edgeStep call (cycle, count, s) y =
      if result < 0 then some (true, count, s') else some (cycle, count + result, s') := by
  simp only [edgeStep, hCall, Option.bind_eq_bind, Option.bind_some]
  rfl

/-- The loop over edges, from what each call does. -/
theorem foldlM_edgeStep {call : Fin N → Search N → Option (Int × Search N)}
    {f : List (Fin N) → Fin N → List (Fin N)} {l : List (Fin N)}
    (hVisit : ∀ y ∈ l, ∀ done, Finished adj dest root path done →
      Visited adj dest root path done (f done y) ∧ (y = dest ∨ y ∈ f done y ∨ y ∈ path))
    (hCall : ∀ y ∈ l, ∀ done s, Finished adj dest root path done → Matches adj dest path done s →
      ∃ s', call y s = some (outcome adj dest (f done y) y, s') ∧
        Matches adj dest path (f done y) s')
    (h : Finished adj dest root path done) (hs : Matches adj dest path done s)
    (cycle : Bool) (count : Int) :
    ∃ cycle' s', l.foldlM (edgeStep call) (cycle, count, s) = some (cycle',
        count + ((l.map fun y => routes adj dest (l.foldl f done) y % 1000000000).sum : Nat), s') ∧
      (cycle' = true ↔ cycle = true ∨ ∃ y ∈ l, y ≠ dest ∧ y ∉ l.foldl f done) ∧
      Matches adj dest path (l.foldl f done) s' := by
  induction l generalizing done s cycle count with
  | nil => exact ⟨cycle, s, by simp, by simp, hs⟩
  | cons x l ih =>
      obtain ⟨hFirst, hFirstEdge⟩ := hVisit x List.mem_cons_self done h
      obtain ⟨s₁, hCalled, hs₁⟩ := hCall x List.mem_cons_self done s h hs
      have hVisit' := fun y hy => hVisit y (List.mem_cons_of_mem x hy)
      have hCall' := fun y hy => hCall y (List.mem_cons_of_mem x hy)
      obtain ⟨hRest, -⟩ := foldl_visited hVisit' hFirst.finished
      have hOutcome := outcome_visited hFirst.finished hRest hFirstEdge
      simp only [List.foldl_cons, List.foldlM_cons, List.map_cons, List.sum_cons,
        List.exists_mem_cons_iff]
      rw [edgeStep_eq hCalled, ← hOutcome]
      by_cases hBack : outcome adj dest (l.foldl f (f done x)) x < 0
      · obtain ⟨cycle', s', hRun, hCycle, hs'⟩ := ih hVisit' hCall' hFirst.finished hs₁ true count
        have hNone := outcome_neg_iff.mp hBack
        refine ⟨cycle', s', ?_, ?_, hs'⟩
        · rw [if_pos hBack, routes_of_notMem hNone.2 hNone.1, Nat.zero_mod, Nat.zero_add]
          exact hRun
        · rw [hCycle]
          simp [hNone]
      · obtain ⟨cycle', s', hRun, hCycle, hs'⟩ := ih hVisit' hCall' hFirst.finished hs₁ cycle
          (count + outcome adj dest (l.foldl f (f done x)) x)
        have hFound := outcome_neg_iff.not.mp hBack
        have hValue : outcome adj dest (l.foldl f (f done x)) x =
            ↑(routes adj dest (l.foldl f (f done x)) x % 1000000000) := by
          rw [outcome, if_pos (by_contra fun hNot => hFound (not_or.mp hNot))]
        refine ⟨cycle', s', ?_, ?_, hs'⟩
        · rw [if_neg hBack, Int.natCast_add, ← Int.add_assoc, ← hValue]
          exact hRun
        · rw [hCycle]
          simp only [hFound, false_or]

section Leave

variable {count : Nat}
  (hCount : count = ((adj u).map fun y => routes adj dest done y % 1000000000).sum)

include hCount

theorem routes_cons_mod : routes adj dest (u :: done) u % 1000000000 = count % 1000000000 := by
  rw [routes, if_pos rfl, List.sum_nat_mod, List.map_map, hCount]
  rfl

theorem count_pos_iff : 0 < count ↔ ∃ y ∈ adj u, ¬1000000000 ∣ routes adj dest done y := by
  rw [hCount, List.sum_pos_iff_exists_pos_nat]
  simp only [List.mem_map, exists_exists_and_eq_and, Nat.pos_iff_ne_zero, Nat.dvd_iff_mod_eq_zero,
    ne_eq]

/-- The state when a node is left. -/
theorem Matches.leave {g : GraphPath N} {cycle : Bool} (hPath : u ∉ path)
    (hs : Matches adj dest (insert u path) done (g, s.2))
    (hCycle : cycle = true ↔ ∃ y ∈ adj u, y ≠ dest ∧ y ∉ done) :
    Matches adj dest path (u :: done)
      ({ g with
          ways := Function.update g.ways u (count % 1000000000)
          infinite := if cycle ∧ 0 < (count : Int) then true else g.infinite }, s.2.erase u) where
  adjList := hs.adjList
  nodes_in_path := by
    have hNodes : s.2 = insert u path := hs.nodes_in_path
    rw [hNodes, Finset.erase_insert hPath]
  ways x := by
    change Function.update g.ways u (count % 1000000000) x = _
    by_cases hEq : x = u
    · rw [hEq, if_pos List.mem_cons_self, routes_cons_mod hCount, Function.update_self]
      rfl
    · have hWays : g.ways x = _ := hs.ways x
      rw [routes, if_neg hEq, Function.update_of_ne hEq, hWays]
      simp only [List.mem_cons, hEq, false_or]
  infinite := by
    have hInfinite : g.infinite = true ↔ _ := hs.infinite
    rw [noticed_cons, ← hCycle, ← count_pos_iff hCount, ← hInfinite]
    simp only [Int.natCast_pos]
    split_ifs with hBoth
    · exact iff_of_true rfl (Or.inl hBoth)
    · simp only [hBoth, false_or]

end Leave

/-- A call leaves what a visit leaves. -/
theorem countPaths_visit {depth : Nat} (hDepth : N ≤ depth + path.card)
    (h : Finished adj dest root path done) (hBelow : Below adj root path u)
    (hs : Matches adj dest path done s) :
    ∃ s', countPaths dest (depth + 1) u s =
        some (outcome adj dest (visit adj dest depth path done u) u, s') ∧
      Matches adj dest path (visit adj dest depth path done u) s' := by
  have hCard : Fintype.card (Fin N) = N := Fintype.card_fin N
  induction depth generalizing path done u s with
  | zero =>
      have hEnd : u = dest ∨ u ∈ visit adj dest 0 path done u ∨ u ∈ path :=
        (visit_visited (by omega) h hBelow).2
      exact ⟨s, countPaths_known h hs hEnd 0, hs⟩
  | succ depth ih =>
      by_cases hKnown : u = dest ∨ u ∈ done ∨ u ∈ path
      · rw [visit_known hKnown]
        exact ⟨s, countPaths_known h hs hKnown (depth + 1), hs⟩
      · rw [visit, if_neg hKnown]
        push Not at hKnown
        obtain ⟨hNe, hDone, hPath⟩ := hKnown
        obtain ⟨g, nodes_in_path⟩ := s
        have hInsert := Finset.card_insert_of_notMem hPath
        have hEntered : Matches adj dest (insert u path) done (g, insert u nodes_in_path) :=
          ⟨hs.adjList, congrArg (insert u) hs.nodes_in_path, hs.ways, hs.infinite⟩
        have hVisit : ∀ y ∈ adj u, ∀ done, Finished adj dest root (insert u path) done →
            Visited adj dest root (insert u path) done
              (visit adj dest depth (insert u path) done y) ∧
            (y = dest ∨ y ∈ visit adj dest depth (insert u path) done y ∨ y ∈ insert u path) :=
          fun y hy _ hFinished => visit_visited (by omega) hFinished (hBelow.step hy)
        have hCall : ∀ y ∈ adj u, ∀ done s, Finished adj dest root (insert u path) done →
            Matches adj dest (insert u path) done s → ∃ s', countPaths dest (depth + 1) y s =
                some (outcome adj dest (visit adj dest depth (insert u path) done y) y, s') ∧
              Matches adj dest (insert u path) (visit adj dest depth (insert u path) done y) s' :=
          fun y hy _ _ hFinished hMatches => ih (by omega) hFinished (hBelow.step hy) hMatches
        obtain ⟨cycle, s', hLoop, hCycle, hs'⟩ :=
          foldlM_edgeStep hVisit hCall (h.enter hDone) hEntered false 0
        obtain ⟨hVisited, -⟩ := foldl_visited hVisit (h.enter hDone)
        have hUnknown : ¬0 ≤ g.ways u := by
          have hWays := hs.ways u
          rw [if_neg hDone] at hWays
          simp only at hWays
          omega
        have hNotIn : u ∉ nodes_in_path := by
          rw [show nodes_in_path = path from hs.nodes_in_path]
          exact hPath
        have hLeft := hs'.leave rfl hPath (hCycle.trans (by simp))
        refine ⟨_, ?_, hLeft⟩
        rw [countPaths, if_neg hNe, if_neg hUnknown, if_neg hNotIn,
          show g.adjList = adj from hs.adjList, hLoop, outcome, if_pos (Or.inr List.mem_cons_self),
          routes_cons_mod rfl, Int.zero_add]
        simp only [Option.bind_eq_bind, Option.bind_some, Function.update_self]
        rfl

/-- Nothing is stored before the first call. -/
theorem ofEdges_fresh (edges : List (Fin N × Fin N)) :
    (∀ x, (ofEdges edges).ways x = -1) ∧ (ofEdges edges).infinite = false := by
  have hKept : ∀ (edges : List (Fin N × Fin N)) (g : GraphPath N),
      (edges.foldl (fun g e => g.add_edge_direct e.1 e.2) g).ways = g.ways ∧
      (edges.foldl (fun g e => g.add_edge_direct e.1 e.2) g).infinite = g.infinite := by
    intro edges
    induction edges with
    | nil => exact fun _ => ⟨rfl, rfl⟩
    | cons e edges ih => exact fun g => ih (g.add_edge_direct e.1 e.2)
  obtain ⟨hWays, hInfinite⟩ := hKept edges (construct N)
  exact ⟨congrFun hWays, hInfinite⟩

/-- The call that a user of the class makes. -/
theorem countPaths_fresh (edges : List (Fin N × Fin N)) (u dest : Fin N) :
    ∃ s, countPaths dest (N + 1) u (ofEdges edges, ∅) = some (outcome (ofEdges edges).adjList dest
        (finishOrder (ofEdges edges).adjList dest u) u, s) ∧
      Matches (ofEdges edges).adjList dest ∅ (finishOrder (ofEdges edges).adjList dest u) s := by
  obtain ⟨hWays, hInfinite⟩ := ofEdges_fresh edges
  have hBelow : Below (ofEdges edges).adjList u ∅ u :=
    ⟨Reaches.refl u, fun y hy => absurd hy (Finset.notMem_empty y)⟩
  have hNone : ¬Noticed (ofEdges edges).adjList dest 1000000000 [] := by
    rintro ⟨x, rest, hSuffix, -⟩
    exact absurd (List.suffix_nil.mp hSuffix) (List.cons_ne_nil x rest)
  have hStart : Matches (ofEdges edges).adjList dest ∅ [] (ofEdges edges, ∅) :=
    ⟨rfl, rfl, hWays, by simp [hInfinite, hNone]⟩
  rw [finishOrder, Fintype.card_fin]
  exact countPaths_visit (Nat.le_add_right N _) (Finished.nil u) hBelow hStart

/-- What is asked of the call. A path is told from others by its edges. -/
def CountsPaths (edges : List (Fin N × Fin N)) (u dest : Fin N) : Prop :=
  ∃ result g nodes_in_path,
    countPaths dest (N + 1) u (ofEdges edges, ∅) = some (result, g, nodes_in_path) ∧
    (g.infinite = true ↔ Endless (ofEdges edges).adjList dest u) ∧
    (g.infinite = false → (walks (ofEdges edges).adjList dest u).Finite ∧
      result = ↑((walks (ofEdges edges).adjList dest u).ncard % 1000000000))

/-- It is met unless there is a cycle on the way to the destination which the search
does not notice: at each node where it finds an edge back, all other edges lead to nodes
from which it knows no path, or a multiple of 1000000000 of them. -/
theorem countPaths_correct_iff (edges : List (Fin N × Fin N)) (u dest : Fin N) :
    CountsPaths edges u dest ↔
      (Endless (ofEdges edges).adjList dest u →
        Noticed (ofEdges edges).adjList dest 1000000000
          (finishOrder (ofEdges edges).adjList dest u)) := by
  obtain ⟨⟨g, nodes_in_path⟩, hRun, hMatches⟩ := countPaths_fresh edges u dest
  obtain ⟨hVisited, hEnd⟩ :
      Visited (ofEdges edges).adjList dest u ∅ [] (finishOrder (ofEdges edges).adjList dest u) ∧
        (u = dest ∨ u ∈ finishOrder (ofEdges edges).adjList dest u) := finishOrder_visited u
  have hFinished := hVisited.finished
  have hFlag : g.infinite = true ↔ _ := hMatches.infinite
  constructor
  · rintro ⟨result, g', nodes_in_path', hRun', hInfinite, -⟩ hEndless
    rw [hRun, Option.some.injEq, Prod.mk.injEq, Prod.mk.injEq] at hRun'
    obtain ⟨-, rfl, -⟩ := hRun'
    exact hFlag.mp (hInfinite.mpr hEndless)
  · intro hNotices
    refine ⟨_, g, nodes_in_path, hRun, ?_, fun hClear => ?_⟩
    · exact ⟨fun hSet => hFinished.endless_of_noticed (hFlag.mp hSet),
        fun hEndless => hFlag.mpr (hNotices hEndless)⟩
    · have hFree : ¬Endless (ofEdges edges).adjList dest u := fun hEndless => by
        rw [hFlag.mpr (hNotices hEndless)] at hClear
        cases hClear
      rw [outcome, if_pos hEnd]
      rcases hEnd with rfl | hMem
      · have hNoCycle : ¬OnCycle (ofEdges edges).adjList u := fun hCycle =>
          hFree ⟨u, Reaches.refl u, hCycle, Reaches.refl u⟩
        rw [walks_dest hNoCycle, routes_dest hFinished.dest_notMem, Set.ncard_singleton]
        exact ⟨Set.finite_singleton [], rfl⟩
      · obtain ⟨hFinite, hCard⟩ := hFinished.ncard_walks hFree u hMem
        rw [hCard]
        exact ⟨hFinite, rfl⟩

/-- The search comes to node 1 first, where it knows no path to node 2 yet. -/
theorem countPaths_misses_cycle :
    ¬CountsPaths [((0 : Fin 3), (1 : Fin 3)), (1, 0), (0, 2)] 0 2 := by
  rintro ⟨result, g, nodes_in_path, hRun, hInfinite, -⟩
  have hClear : (countPaths (2 : Fin 3) 4 0
      (ofEdges [(0, 1), (1, 0), (0, 2)], ∅)).map (fun r => r.2.1.infinite) = some false := by
    decide
  rw [hRun, Option.map_some, Option.some.injEq] at hClear
  have hEndless : Endless (ofEdges [((0 : Fin 3), (1 : Fin 3)), (1, 0), (0, 2)]).adjList 2 0 :=
    ⟨0, Reaches.refl 0, OnCycle.of_mem (y := 1) (by decide) (Reaches.of_mem (by decide)),
      Reaches.of_mem (by decide)⟩
  rw [hInfinite.mpr hEndless] at hClear
  cases hClear

end CppPerf.Graphs.GraphPath
