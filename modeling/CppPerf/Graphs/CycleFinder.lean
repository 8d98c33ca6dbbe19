import CppPerf.Semantics.OrderedMap
import CppPerf.Semantics.OrderedSet
import Mathlib.Algebra.Order.Ring.Int
import Mathlib.Data.Finset.Card
import Mathlib.Data.Prod.Lex

/-! `Cycle_Finder` of `helper.h`, for nodes whose index and value are `int`s. -/
namespace CppPerf.Graphs

open Ordered

/-- An index and a value, ordered as pairs. -/
abbrev Node := Int ×ₗ Int

def Node.index (p : Node) : Int := (ofLex p).1

def Node.value (p : Node) : Int := (ofLex p).2

abbrev Edges := OrderedMap Node (List Node)

namespace Cycle_Finder

/-- The nodes behind a node. -/
def adjacent (edges : Edges) (v : Node) : List Node := (edges.lookup v).getD []

def add (edges : Edges) (left right : Node) : Edges :=
  edges.set left (insertElement right (adjacent edges left))

/-- `edges[from]` has an entry from now on. -/
def access (edges : Edges) (v : Node) : Edges :=
  if edges.lookup v = none then edges.set v [] else edges

/-- The map that all calls share. -/
abbrev Result := OrderedMap Int Int

def values (result : Result) : List Int := result.entries.map Prod.snd

/-- The loop over the nodes behind the node `from`. Only what the call has added is removed. -/
def tryAll (dfs : Edges → Node → Result → Option (Bool × Result × Edges)) :
    List Node → Edges → Result → Option (Bool × Result × Edges)
  | [], edges, result => some (false, result, edges)
  | p :: rest, edges, result => do
      let exist := (result.lookup p.index).isSome
      let (found, result, edges) ← dfs edges p result
      if found then some (true, result, edges)
      else
        let last := (result.lookup p.index).isSome
        tryAll dfs rest edges (if !exist && last then result.erase p.index else result)

/-- A map of `int`s has at most `2 ^ 32` entries, so that its size equals a positive `int` as a
number when it does so after the conversion. -/
def dfs (first : Node) (size : Nat) :
    (fuel : Nat) → Edges → Node → Result → Option (Bool × Result × Edges)
  | 0, _, _, _ => none
  | fuel + 1, edges, start, result =>
      if (result.lookup start.index).isSome then
        if result.entries.length ≠ size ∨ start ≠ first then some (false, result, edges)
        else
          let uniq_val := insertAll (values result) []
          some (uniq_val.length = size, result, edges)
      else
        let result := result.set start.index start.value
        let edges := access edges start
        tryAll (dfs first size fuel) (adjacent edges start) edges result

/-- `init + p.second`, which wraps around. -/
def accumulate (result : Result) : Int :=
  (values result).foldl (fun init v => (init + v).bmod (2 ^ 32)) 0

/-- The next key. Keys that were added in the meantime are not left out. -/
def nextKey (edges : Edges) (e : Node) : Option Node := (edges.upperBound e).map Prod.fst

/-- The loop over the keys, which a call may add to. -/
def sumLoop (size depth : Nat) :
    (fuel : Nat) → Edges → Option Node → List Int → Option (List Int)
  | 0, _, _, _ => none
  | _ + 1, _, none, ans => some ans
  | fuel + 1, edges, some e, ans => do
      let (found, result, edges) ← dfs e size depth edges e OrderedMap.empty
      sumLoop size depth fuel edges (nextKey edges e)
        (if found then insertElement (accumulate result) ans else ans)

def sum_cycle (fuel : Nat) (edges : Edges) (size : Nat) : Option (List Int) :=
  sumLoop size fuel fuel edges (edges.first.map Prod.fst) []

/-- The edges are added one after the other. -/
def ofEdges (es : List (Node × Node)) : Edges :=
  es.foldl (fun edges e => add edges e.1 e.2) OrderedMap.empty

end Cycle_Finder

/-! The search of `Cycle_Finder`: what a call of `dfs` finds, and what it leaves behind. -/

namespace Cycle_Finder

variable {A : Node → List Node} {P : Node → Prop} {first start x y : Node} {size fuel : Nat}
  {edges edges' : Edges} {R R' : Result} {b : Bool} {p : List Node}

def enter (R : Result) (x : Node) : Result := R.set x.index x.value

def enterAll (R : Result) (p : List Node) : Result := p.foldl enter R

/-- The nodes of a path back to the first node, which is not entered again. -/
inductive Route (A : Node → List Node) (first : Node) : Node → List Node → Prop where
  | back : Route A first first []
  | enter {x y : Node} {p : List Node} (hEdge : y ∈ A x) (h : Route A first y p) :
      Route A first x (x :: p)

/-- A way to complete a cycle, behind the nodes of the map. -/
structure Completes (A : Node → List Node) (first : Node) (size : Nat) (R : Result)
    (start : Node) (p : List Node) : Prop where
  route : Route A first start p
  fresh : ∀ x ∈ p, R.lookup x.index = none
  indices : (p.map Node.index).Nodup
  closes : ((enterAll R p).lookup first.index).isSome = true
  size_eq : (enterAll R p).entries.length = size
  values_nodup : (values (enterAll R p)).Nodup

/-- At a known index the cycle is complete, or it never will be. -/
theorem completes_known (hKnown : (R.lookup start.index).isSome = true) :
    Completes A first size R start p ↔
      p = [] ∧ start = first ∧ R.entries.length = size ∧ (values R).Nodup := by
  constructor
  · intro h
    cases h.route with
    | back => exact ⟨rfl, rfl, h.size_eq, h.values_nodup⟩
    | enter hEdge hRoute =>
        rw [h.fresh start List.mem_cons_self] at hKnown
        cases hKnown
  · rintro ⟨rfl, rfl, hSize, hValues⟩
    exact ⟨.back, by simp, List.nodup_nil, hKnown, hSize, hValues⟩

/-- A new index is entered. -/
theorem completes_new (hNew : R.lookup start.index = none) :
    Completes A first size R start p ↔
      ∃ y ∈ A start, ∃ q, p = start :: q ∧ Completes A first size (enter R start) y q := by
  constructor
  · intro h
    cases h.route with
    | back =>
        have hCloses : (R.lookup first.index).isSome = true := h.closes
        rw [hNew] at hCloses
        cases hCloses
    | @enter x y q hEdge hRoute =>
        have hIndices := h.indices
        rw [List.map_cons, List.nodup_cons] at hIndices
        refine ⟨y, hEdge, q, rfl, hRoute, ?_, hIndices.2, h.closes, h.size_eq, h.values_nodup⟩
        intro z hz
        have hNe : z.index ≠ start.index := fun hEq =>
          hIndices.1 (hEq ▸ List.mem_map_of_mem hz)
        rw [enter, OrderedMap.lookup_set_of_ne _ _ hNe]
        exact h.fresh z (List.mem_cons_of_mem _ hz)
  · rintro ⟨y, hEdge, q, rfl, h⟩
    have hOther : ∀ z ∈ q, z.index ≠ start.index ∧ R.lookup z.index = none := by
      intro z hz
      have hFresh := h.fresh z hz
      have hNe : z.index ≠ start.index := by
        intro hEq
        rw [enter, hEq, OrderedMap.lookup_set_self] at hFresh
        cases hFresh
      rw [enter, OrderedMap.lookup_set_of_ne _ _ hNe] at hFresh
      exact ⟨hNe, hFresh⟩
    refine ⟨.enter hEdge h.route, ?_, ?_, h.closes, h.size_eq, h.values_nodup⟩
    · intro z hz
      rcases List.mem_cons.mp hz with rfl | hz
      · exact hNew
      · exact (hOther z hz).2
    · rw [List.map_cons, List.nodup_cons]
      refine ⟨fun hMem => ?_, h.indices⟩
      obtain ⟨z, hz, hEq⟩ := List.mem_map.mp hMem
      exact (hOther z hz).1 hEq

/-- The map of edges has these successors, and only these keys. -/
structure Holds (A : Node → List Node) (P : Node → Prop) (edges : Edges) : Prop where
  adjacent_eq : ∀ v, adjacent edges v = A v
  keys : ∀ e ∈ edges.entries, P e.1

theorem Holds.access (h : Holds A P edges) (hx : P x) : Holds A P (access edges x) := by
  rw [Cycle_Finder.access]
  split_ifs with hNone
  · constructor
    · intro v
      rw [← h.adjacent_eq v, adjacent, adjacent]
      by_cases hSame : v = x
      · rw [hSame, OrderedMap.lookup_set_self, hNone]
        rfl
      · rw [OrderedMap.lookup_set_of_ne _ _ hSame]
    · intro e he
      rw [OrderedMap.mem_set] at he
      rcases he with rfl | ⟨he, -⟩
      · exact hx
      · exact h.keys e he
  · exact h

/-- What a call leaves in the map when it fails. -/
def left (R : Result) (start : Node) : Result :=
  if (R.lookup start.index).isSome then R else enter R start

structure Outcome (A : Node → List Node) (P : Node → Prop) (first : Node) (size : Nat)
    (R : Result) (start : Node) (b : Bool) (R' : Result) (edges' : Edges) : Prop where
  holds : Holds A P edges'
  found : b = true → ∃ p, Completes A first size R start p ∧ R' = enterAll R p
  failed : b = false → R' = left R start ∧ ∀ p, ¬Completes A first size R start p

/-- The loop removes what a failed call has entered, so that every call sees the same map. -/
theorem restore (R : Result) (y : Node) :
    (if !(R.lookup y.index).isSome && ((left R y).lookup y.index).isSome
      then (left R y).erase y.index else left R y) = R := by
  cases hKnown : R.lookup y.index with
  | some v => simp [left, hKnown]
  | none => simp [left, enter, hKnown, OrderedMap.erase_set_of_none _ _ hKnown]

theorem tryAll_outcome {search : Edges → Node → Result → Option (Bool × Result × Edges)}
    (hSearch : ∀ edges y b R' edges', Holds A P edges → P y →
      search edges y R = some (b, R', edges') → Outcome A P first size R y b R' edges')
    {ps : List Node} (hps : ∀ y ∈ ps, P y) (hHolds : Holds A P edges)
    (h : tryAll search ps edges R = some (b, R', edges')) :
    Holds A P edges' ∧
    (b = true → ∃ y ∈ ps, ∃ p, Completes A first size R y p ∧ R' = enterAll R p) ∧
    (b = false → R' = R ∧ ∀ y ∈ ps, ∀ p, ¬Completes A first size R y p) := by
  induction ps generalizing edges with
  | nil =>
      cases h
      exact ⟨hHolds, by simp, by simp⟩
  | cons y ps ih =>
      simp only [tryAll, Option.bind_eq_bind, Option.bind_eq_some_iff] at h
      obtain ⟨⟨found, R1, edges1⟩, hCall, hRest⟩ := h
      have hOutcome := hSearch edges y found R1 edges1 hHolds (hps y List.mem_cons_self) hCall
      cases found with
      | true =>
          cases hRest
          obtain ⟨p, hp, hEq⟩ := hOutcome.found rfl
          exact ⟨hOutcome.holds, fun _ => ⟨y, List.mem_cons_self, p, hp, hEq⟩, by simp⟩
      | false =>
          obtain ⟨rfl, hNone⟩ := hOutcome.failed rfl
          simp only [Bool.false_eq_true, if_false, restore] at hRest
          obtain ⟨hLast, hFound, hFailed⟩ :=
            ih (fun z hz => hps z (List.mem_cons_of_mem _ hz)) hOutcome.holds hRest
          refine ⟨hLast, fun hb => ?_, fun hb => ?_⟩
          · obtain ⟨z, hz, hCompletes⟩ := hFound hb
            exact ⟨z, List.mem_cons_of_mem _ hz, hCompletes⟩
          · obtain ⟨hSame, hOthers⟩ := hFailed hb
            refine ⟨hSame, fun z hz => ?_⟩
            rcases List.mem_cons.mp hz with rfl | hz
            · exact hNone
            · exact hOthers z hz

/-- A call finds a way to complete the cycle, or there is none. -/
theorem dfs_outcome (hTargets : ∀ v, ∀ w ∈ A v, P w) (hHolds : Holds A P edges) (hStart : P start)
    (h : dfs first size fuel edges start R = some (b, R', edges')) :
    Outcome A P first size R start b R' edges' := by
  induction fuel generalizing edges start R b R' edges' with
  | zero => cases h
  | succ fuel ih =>
      rw [dfs] at h
      split_ifs at h with hKnown hOther
      · cases h
        refine ⟨hHolds, by simp, fun _ => ⟨by rw [left, if_pos hKnown], fun p hp => ?_⟩⟩
        obtain ⟨-, hFirst, hSize, -⟩ := (completes_known hKnown).mp hp
        rcases hOther with hSizeNe | hNe
        · exact hSizeNe hSize
        · exact hNe hFirst
      · rw [not_or, not_not, not_not] at hOther
        have hUnique : (insertAll (values R) []).length = size ↔ (values R).Nodup := by
          rw [← hOther.1, ← length_insertAll_eq_iff, values, List.length_map]
        cases h
        refine ⟨hHolds, fun hb => ?_, fun hb => ⟨by rw [left, if_pos hKnown], fun p hp => ?_⟩⟩
        · have hNodup := hUnique.mp (of_decide_eq_true hb)
          exact ⟨[], (completes_known hKnown).mpr ⟨rfl, hOther.2, hOther.1, hNodup⟩, rfl⟩
        · obtain ⟨-, -, -, hNodup⟩ := (completes_known hKnown).mp hp
          exact of_decide_eq_false hb (hUnique.mpr hNodup)
      · have hNew : R.lookup start.index = none := by simpa using hKnown
        have hAccess := hHolds.access hStart
        obtain ⟨hLast, hFound, hFailed⟩ := tryAll_outcome
          (fun edges y b R' edges' hHolds hy hCall => ih hHolds hy hCall)
          (fun y hy => hTargets start y (hAccess.adjacent_eq start ▸ hy)) hAccess h
        rw [hAccess.adjacent_eq] at hFound hFailed
        refine ⟨hLast, fun hb => ?_, fun hb => ?_⟩
        · obtain ⟨y, hy, q, hq, hEq⟩ := hFound hb
          exact ⟨start :: q, (completes_new hNew).mpr ⟨y, hy, q, rfl, hq⟩, hEq⟩
        · obtain ⟨hSame, hNone⟩ := hFailed hb
          refine ⟨by rw [left, if_neg hKnown, hSame]; rfl, fun p hp => ?_⟩
          obtain ⟨y, hy, q, -, hq⟩ := (completes_new hNew).mp hp
          exact hNone y hy q hq

/-- The map is restored after a failure, but for the entry of the node itself. -/
theorem dfs_failed (h : dfs first size fuel edges start R = some (false, R', edges')) :
    R' = left R start := by
  have hOutcome := dfs_outcome (A := adjacent edges) (P := fun _ => True) (fun _ _ _ => trivial)
    ⟨fun _ => rfl, fun _ _ => trivial⟩ trivial h
  exact (hOutcome.failed rfl).1

section Fuel

variable {I : Finset Int}

/-- The indices that are not entered. -/
def unentered (I : Finset Int) (R : Result) : Finset Int := I.filter fun i => R.lookup i = none

theorem unentered_enter (hNew : R.lookup x.index = none) (hx : x.index ∈ I) :
    (unentered I (enter R x)).card < (unentered I R).card := by
  apply Finset.card_lt_card
  rw [Finset.ssubset_iff_of_subset]
  · refine ⟨x.index, Finset.mem_filter.mpr ⟨hx, hNew⟩, fun hMem => ?_⟩
    have hNone := (Finset.mem_filter.mp hMem).2
    rw [enter, OrderedMap.lookup_set_self] at hNone
    cases hNone
  · intro i hi
    obtain ⟨hMem, hNone⟩ := Finset.mem_filter.mp hi
    refine Finset.mem_filter.mpr ⟨hMem, ?_⟩
    by_cases hSame : i = x.index
    · rw [hSame]
      exact hNew
    · rwa [enter, OrderedMap.lookup_set_of_ne _ _ hSame] at hNone

theorem tryAll_total {search : Edges → Node → Result → Option (Bool × Result × Edges)}
    (hSearch : ∀ edges y, Holds A P edges → P y →
      ∃ b R' edges', search edges y R = some (b, R', edges') ∧ Holds A P edges' ∧
        (b = false → R' = left R y))
    {ps : List Node} (hps : ∀ y ∈ ps, P y) (hHolds : Holds A P edges) :
    ∃ b R' edges', tryAll search ps edges R = some (b, R', edges') := by
  induction ps generalizing edges with
  | nil => exact ⟨false, R, edges, rfl⟩
  | cons y ps ih =>
      obtain ⟨b, R1, edges1, hCall, hNext, hFailed⟩ :=
        hSearch edges y hHolds (hps y List.mem_cons_self)
      simp only [tryAll, hCall, Option.bind_eq_bind, Option.bind_some]
      cases b with
      | true => exact ⟨true, R1, edges1, rfl⟩
      | false =>
          rw [hFailed rfl]
          simp only [Bool.false_eq_true, if_false, restore]
          exact ih (fun z hz => hps z (List.mem_cons_of_mem _ hz)) hNext

/-- The depth of the search is at most the number of indices. -/
theorem dfs_total (hTargets : ∀ v, ∀ w ∈ A v, P w) (hIndices : ∀ v, P v → v.index ∈ I)
    (hHolds : Holds A P edges) (hStart : P start) (hFuel : (unentered I R).card < fuel) :
    ∃ b R' edges', dfs first size fuel edges start R = some (b, R', edges') := by
  induction fuel generalizing edges start R with
  | zero => omega
  | succ fuel ih =>
      rw [dfs]
      split_ifs with hKnown hOther
      · exact ⟨false, R, edges, rfl⟩
      · exact ⟨_, R, edges, rfl⟩
      · have hNew : R.lookup start.index = none := by simpa using hKnown
        have hAccess := hHolds.access hStart
        have hLess := unentered_enter hNew (hIndices start hStart)
        refine tryAll_total (A := A) (P := P) (fun edges y hEdges hy => ?_)
          (fun y hy => hTargets start y (hAccess.adjacent_eq start ▸ hy)) hAccess
        obtain ⟨b, R', edges', hCall⟩ :=
          ih (R := enter R start) hEdges hy (by omega)
        have hOutcome := dfs_outcome hTargets hEdges hy hCall
        refine ⟨b, R', edges', hCall, hOutcome.holds, fun hb => (hOutcome.failed hb).1⟩

end Fuel

end Cycle_Finder

end CppPerf.Graphs
