import CppPerf.Semantics.BinarySearch
import CppPerf.Semantics.Enumeration
import CppPerf.Semantics.OrderedMap
import Mathlib.Data.List.Lex
import Mathlib.Data.List.ModifyLast

/-! The brick walls of `brickbybrick.cpp`. Numbers do not overflow. -/
namespace CppPerf.Counting

open Ordered SortedRange

/-- The ends of the bricks of a row. -/
abbrev Pattern := List Nat

/-- The pattern that is built, and the patterns that are complete. The pattern changes in place,
so that a call also returns it. -/
def valid_tile (N len : Nat) (pattern : Pattern) (patterns : List Pattern) :
    Pattern × List Pattern :=
  if N ≤ len then (pattern, if len = N then patterns ++ [pattern] else patterns)
  else
    let s := valid_tile N (len + 2) (pattern ++ [len + 2]) patterns
    let s := valid_tile N (len + 3) (s.1.modifyLast (· + 1)) s.2
    (s.1.dropLast, s.2)
  termination_by N - len

abbrev Neighbors := OrderedMap Pattern (List Pattern)

/-- The entry of a pattern that has none is empty. -/
def neighbors (patterns_no_crack : Neighbors) (pattern : Pattern) : List Pattern :=
  (patterns_no_crack.lookup pattern).getD []

theorem neighbors_set (nc : Neighbors) (p q : Pattern) (l : List Pattern) :
    neighbors (nc.set p l) q = if q = p then l else neighbors nc q := by
  rw [neighbors]
  split_ifs with hSame
  · rw [hSame, OrderedMap.lookup_set_self]
    rfl
  · rw [OrderedMap.lookup_set_of_ne _ _ hSame, neighbors]

/-- The last end, which is the width of the row. A row of a width above zero has one. -/
def back (pattern : Pattern) : Nat := pattern.getLastD 0

/-- The row is complete, or there is no crack. -/
def fits (prev_pattern : Pattern) (size : Nat) : Bool :=
  size = back prev_pattern || !binarySearch prev_pattern size

/-- The loop over the two sizes is written out. -/
def neighbor_pattern (prev_pattern : Pattern) (len : Nat) (pattern : Pattern)
    (patterns_no_crack : Neighbors) : Pattern × Neighbors :=
  if back prev_pattern ≤ len then
    (pattern,
      if len = back prev_pattern then
        patterns_no_crack.set prev_pattern (neighbors patterns_no_crack prev_pattern ++ [pattern])
      else patterns_no_crack)
  else
    let s := (pattern, patterns_no_crack)
    let s :=
      if fits prev_pattern (len + 2) then
        let s := neighbor_pattern prev_pattern (len + 2) (s.1 ++ [len + 2]) s.2
        (s.1.dropLast, s.2)
      else s
    if fits prev_pattern (len + 3) then
      let s := neighbor_pattern prev_pattern (len + 3) (s.1 ++ [len + 3]) s.2
      (s.1.dropLast, s.2)
    else s
  termination_by back prev_pattern - len

/-- The ways for each height and pattern. -/
abbrev Memo := List (OrderedMap Pattern Nat)

/-- A pattern that is asked for has an entry from now on. -/
def access (patterns_no_crack : Neighbors) (pattern : Pattern) : Neighbors :=
  if patterns_no_crack.lookup pattern = none then patterns_no_crack.set pattern []
  else patterns_no_crack

/-- The loop over the neighbours, with the sum so far. -/
def sumWays (build : Pattern → Neighbors → Memo → Option (Nat × Neighbors × Memo)) :
    List Pattern → Nat → Neighbors → Memo → Option (Nat × Neighbors × Memo)
  | [], result, patterns_no_crack, memo => some (result, patterns_no_crack, memo)
  | p :: rest, result, patterns_no_crack, memo => do
      let (ways, patterns_no_crack, memo) ← build p patterns_no_crack memo
      sumWays build rest (result + ways) patterns_no_crack memo

/-- `none` for a height that the memo does not have. -/
def build_wall : (height : Nat) → (prev_pattern : Pattern) → Neighbors → Memo →
    Option (Nat × Neighbors × Memo)
  | 0, _, patterns_no_crack, memo => some (1, patterns_no_crack, memo)
  | height + 1, prev_pattern, patterns_no_crack, memo => do
      let found := (← memo[height + 1]?).lookup prev_pattern
      match found with
      | some ways => some (ways, patterns_no_crack, memo)
      | none =>
          let patterns := neighbors patterns_no_crack prev_pattern
          let (result, patterns_no_crack, memo) ←
            sumWays (build_wall height) patterns 0 (access patterns_no_crack prev_pattern) memo
          let memo := memo.modify (height + 1) (·.set prev_pattern result)
          some (result, patterns_no_crack, memo)

/-- The loop over the patterns of the row above. -/
def allNeighbors (patterns : List Pattern) (p : Pattern) : Pattern × Neighbors :=
  patterns.foldl (fun s prev => neighbor_pattern prev 0 s.1 s.2) (p, OrderedMap.empty)

def W (width height : Nat) : Option Nat := do
  let (p, patterns) := valid_tile width 0 [] []
  let (_, patterns_no_crack) := allNeighbors patterns p
  let memo := List.replicate height OrderedMap.empty
  let (ways, _, _) ← sumWays (build_wall (height - 1)) patterns 0 patterns_no_crack memo
  some ways

example : W 9 3 = some 8 := by decide +kernel

/-! The ways of `brickbybrick.cpp` with and without the memo. -/

open Enumeration

variable {next : Pattern → List Pattern} {nc : Neighbors} {memo : Memo} {height : Nat}

/-- The neighbours stay the same, and the memo holds numbers of chains. -/
structure Valid (next : Pattern → List Pattern) (nc : Neighbors) (memo : Memo) : Prop where
  neighbors_eq : ∀ p, neighbors nc p = next p
  ways_eq : ∀ h ways p w, memo[h]? = some ways → ways.lookup p = some w → w = countChains next h p

theorem neighbors_access (nc : Neighbors) (p q : Pattern) :
    neighbors (access nc p) q = neighbors nc q := by
  rw [access]
  split_ifs with hNone
  · rw [neighbors_set]
    split_ifs with hSame
    · rw [hSame, neighbors, hNone]
      rfl
    · rfl
  · rfl

theorem Valid.access (h : Valid next nc memo) (p : Pattern) :
    Valid next (access nc p) memo :=
  ⟨fun q => (neighbors_access nc p q).trans (h.neighbors_eq q), h.ways_eq⟩

/-- A number of chains may be stored. -/
theorem Valid.store (h : Valid next nc memo) (p : Pattern) :
    Valid next nc (memo.modify height (·.set p (countChains next height p))) := by
  refine ⟨h.neighbors_eq, fun h' ways q w hAt hLookup => ?_⟩
  rw [List.getElem?_modify] at hAt
  split_ifs at hAt with hSame
  · subst hSame
    obtain ⟨old, hOld, rfl⟩ := Option.map_eq_some_iff.mp hAt
    by_cases hKey : q = p
    · rw [hKey, OrderedMap.lookup_set_self] at hLookup
      cases hLookup
      rw [hKey]
    · rw [OrderedMap.lookup_set_of_ne _ _ hKey] at hLookup
      exact h.ways_eq height old q w hOld hLookup
  · rw [id_map'] at hAt
    exact h.ways_eq h' ways q w hAt hLookup

/-- The call counts the chains and keeps the memo valid. -/
def Counts (next : Pattern → List Pattern) (size : Nat) (result : Nat)
    (outcome : Option (Nat × Neighbors × Memo)) : Prop :=
  ∃ nc memo, outcome = some (result, nc, memo) ∧ Valid next nc memo ∧ memo.length = size

theorem sumWays_counts {build : Pattern → Neighbors → Memo → Option (Nat × Neighbors × Memo)}
    {count : Pattern → Nat} {size : Nat}
    (hBuild : ∀ p nc memo, Valid next nc memo → memo.length = size →
      Counts next size (count p) (build p nc memo))
    (ps : List Pattern) (result : Nat) (hValid : Valid next nc memo) (hSize : memo.length = size) :
    Counts next size (result + (ps.map count).sum) (sumWays build ps result nc memo) := by
  induction ps generalizing result nc memo with
  | nil => exact ⟨nc, memo, rfl, hValid, hSize⟩
  | cons p ps ih =>
      obtain ⟨nc', memo', hCall, hValid', hSize'⟩ := hBuild p nc memo hValid hSize
      rw [sumWays, hCall, List.map_cons, List.sum_cons, ← Nat.add_assoc]
      exact ih (result + count p) hValid' hSize'

/-- The memo does not change what is counted. -/
theorem build_wall_counts (prev : Pattern) (hValid : Valid next nc memo)
    (hHeight : height < memo.length) :
    Counts next memo.length (countChains next height prev) (build_wall height prev nc memo) := by
  generalize hSize : memo.length = size at hHeight ⊢
  induction height generalizing prev nc memo with
  | zero => exact ⟨nc, memo, rfl, hValid, hSize⟩
  | succ height ih =>
      have hAt : memo[height + 1]? = some memo[height + 1] := List.getElem?_eq_getElem _
      rw [build_wall, hAt]
      simp only [Option.bind_eq_bind, Option.bind_some]
      cases hFound : memo[height + 1].lookup prev with
      | some ways =>
          rw [← hValid.ways_eq _ _ _ _ hAt hFound]
          exact ⟨nc, memo, rfl, hValid, hSize⟩
      | none =>
          obtain ⟨nc', memo', hCall, hValid', hSize'⟩ :=
            sumWays_counts (fun p nc memo hValid hSize => ih p hValid hSize (by omega))
              (next prev) 0 (hValid.access prev) hSize
          rw [Nat.zero_add] at hCall
          simp only [hValid.neighbors_eq, hCall, Option.bind_some]
          refine ⟨nc', _, rfl, hValid'.store prev, ?_⟩
          rw [List.length_modify, hSize']

/-- The memo starts empty. -/
theorem valid_replicate (hNext : ∀ p, neighbors nc p = next p) (height : Nat) :
    Valid next nc (List.replicate height OrderedMap.empty) := by
  refine ⟨hNext, fun h ways p w hAt hLookup => ?_⟩
  obtain rfl := List.eq_of_mem_replicate (List.mem_of_getElem? hAt)
  cases hLookup

/-- The ways for all patterns of the first row. -/
theorem W_eq_count {width : Nat} {patterns : List Pattern} {p p' : Pattern} (hHeight : 0 < height)
    (hTile : valid_tile width 0 [] [] = (p, patterns))
    (hNext : allNeighbors patterns p = (p', nc)) :
    W width height = some ((patterns.map (countChains (neighbors nc) (height - 1))).sum) := by
  have hBuild : ∀ p nc' memo, Valid (neighbors nc) nc' memo → memo.length = height →
      Counts (neighbors nc) height (countChains (neighbors nc) (height - 1) p)
        (build_wall (height - 1) p nc' memo) := by
    intro p nc' memo hValid hSize
    have hBelow : height - 1 < memo.length := by omega
    have hCounts := build_wall_counts p hValid hBelow
    rwa [hSize] at hCounts
  obtain ⟨nc', memo', hCall, -, -⟩ := sumWays_counts hBuild patterns 0
    (valid_replicate (fun _ => rfl) height) List.length_replicate
  rw [Nat.zero_add] at hCall
  simp only [W, hTile, hNext, hCall, Option.bind_eq_bind, Option.bind_some]

end CppPerf.Counting

/-! The patterns that the searches of `brickbybrick.cpp` find. -/
namespace CppPerf.Counting

open Ordered SortedRange Enumeration

variable {N len size : Nat} {ok : Nat → Prop} {q prev pattern : Pattern} {nc nc' nc'' : Neighbors}

/-- The ends that lead from a position to the last one. -/
inductive Tail (N : Nat) (ok : Nat → Prop) : Nat → Pattern → Prop where
  | done : Tail N ok N []
  | brick {len size : Nat} {q : Pattern} (hSize : size = len + 2 ∨ size = len + 3) (hOk : ok size)
      (h : Tail N ok size q) : Tail N ok len (size :: q)

theorem Tail.le (h : Tail N ok len q) : len ≤ N := by
  induction h with
  | done => exact le_rfl
  | brick hSize _ _ ih => omega

theorem tail_at_end : Tail N ok N q ↔ q = [] := by
  constructor
  · intro h
    cases h with
    | done => rfl
    | brick hSize _ hRest =>
        have hLe := hRest.le
        omega
  · rintro rfl
    exact .done

/-- The two searches differ only in the ends that they allow. -/
theorem enumerates_step {l l' : List Pattern} (hLt : len < N)
    (h : Enumerates l fun r => ok (len + 2) ∧ Tail N ok (len + 2) r)
    (h' : Enumerates l' fun r => ok (len + 3) ∧ Tail N ok (len + 3) r) :
    Enumerates (l.map ((len + 2) :: ·) ++ l'.map ((len + 3) :: ·)) (Tail N ok len) := by
  have hApart : ∀ q, (∃ r, (ok (len + 2) ∧ Tail N ok (len + 2) r) ∧ (len + 2) :: r = q) →
      ¬∃ r, (ok (len + 3) ∧ Tail N ok (len + 3) r) ∧ (len + 3) :: r = q := by
    rintro _ ⟨r, -, rfl⟩ ⟨r', -, hEq⟩
    have hHead := List.head_eq_of_cons_eq hEq
    omega
  refine ((h.map List.cons_injective).append (h'.map List.cons_injective) hApart).congr fun q => ?_
  constructor
  · rintro (⟨r, ⟨hOk, hTail⟩, rfl⟩ | ⟨r, ⟨hOk, hTail⟩, rfl⟩)
    · exact .brick (Or.inl rfl) hOk hTail
    · exact .brick (Or.inr rfl) hOk hTail
  · intro hTail
    cases hTail with
    | done => exact absurd hLt (lt_irrefl N)
    | brick hSize hOk hRest =>
        rcases hSize with rfl | rfl
        · exact Or.inl ⟨_, ⟨hOk, hRest⟩, rfl⟩
        · exact Or.inr ⟨_, ⟨hOk, hRest⟩, rfl⟩

/-- What both searches find at the end of a row or behind it. -/
theorem enumerates_end (hLe : N ≤ len) :
    Enumerates (if len = N then [[]] else []) (Tail N ok len) := by
  split_ifs with hEnd
  · subst hEnd
    exact (enumerates_singleton []).congr fun q => tail_at_end.symm
  · apply enumerates_nil
    intro q hTail
    have hLe' := hTail.le
    omega

/-- Every row is found once, and the pattern is as before. -/
theorem valid_tile_spec (N len : Nat) (pattern : Pattern) (patterns : List Pattern) :
    ∃ new, valid_tile N len pattern patterns = (pattern, patterns ++ new.map (pattern ++ ·)) ∧
      Enumerates new (Tail N (fun _ => True) len) := by
  induction hMeasure : N - len using Nat.strongRecOn generalizing len pattern patterns with
  | ind n ih =>
      rw [valid_tile]
      split_ifs with hEnd hExact
      · refine ⟨_, ?_, enumerates_end hEnd⟩
        simp [hExact]
      · refine ⟨_, ?_, enumerates_end hEnd⟩
        simp [hExact]
      · obtain ⟨new2, hTwo, hNew2⟩ :=
          ih _ (by omega) (len + 2) (pattern ++ [len + 2]) patterns rfl
        obtain ⟨new3, hThree, hNew3⟩ := ih _ (by omega) (len + 3) (pattern ++ [len + 3])
          (patterns ++ new2.map (pattern ++ [len + 2] ++ ·)) rfl
        have hBump : (pattern ++ [len + 2]).modifyLast (· + 1) = pattern ++ [len + 3] :=
          List.modifyLast_concat ..
        refine ⟨_, ?_, enumerates_step (Nat.lt_of_not_le hEnd)
          (hNew2.congr fun _ => (true_and _).symm.to_iff)
          (hNew3.congr fun _ => (true_and _).symm.to_iff)⟩
        simp only [hTwo, hBump, hThree, List.dropLast_concat]
        simp [Function.comp_def]

/-- One entry has become longer. -/
def Extends (nc : Neighbors) (prev : Pattern) (l : List Pattern) (nc' : Neighbors) : Prop :=
  ∀ q, neighbors nc' q = if q = prev then neighbors nc q ++ l else neighbors nc q

theorem extends_refl (nc : Neighbors) (prev : Pattern) : Extends nc prev [] nc := by
  intro q
  simp

theorem Extends.trans {l l' : List Pattern} (h : Extends nc prev l nc')
    (h' : Extends nc' prev l' nc'') : Extends nc prev (l ++ l') nc'' := by
  intro q
  rw [h' q, h q]
  split_ifs <;> simp

theorem extends_set (nc : Neighbors) (prev p : Pattern) :
    Extends nc prev [p] (nc.set prev (neighbors nc prev ++ [p])) := by
  intro q
  rw [neighbors_set]
  split_ifs with hSame
  · rw [hSame]
  · rfl

/-- The end is that of the row, or there is no brick of the other row that ends there. -/
def NoCrack (N : Nat) (prev : Pattern) (size : Nat) : Prop := size = N ∨ size ∉ prev

theorem fits_iff (hSorted : prev.Pairwise (· < ·)) :
    fits prev size = true ↔ NoCrack (back prev) prev size := by
  have hSearch := @binarySearch_iff _ _ _ size (hSorted.imp fun h => h.le)
  rw [fits, NoCrack, ← hSearch]
  simp

/-- One turn of the loop over the sizes. -/
theorem brick_spec (hSorted : prev.Pairwise (· < ·))
    (hSearch : ∃ new nc', neighbor_pattern prev size (pattern ++ [size]) nc =
        (pattern ++ [size], nc') ∧
      Extends nc prev (new.map (pattern ++ [size] ++ ·)) nc' ∧
      Enumerates new (Tail (back prev) (NoCrack (back prev) prev) size)) :
    ∃ new nc', (if fits prev size = true then
        ((neighbor_pattern prev size (pattern ++ [size]) nc).1.dropLast,
          (neighbor_pattern prev size (pattern ++ [size]) nc).2)
        else (pattern, nc)) = (pattern, nc') ∧
      Extends nc prev ((new.map (size :: ·)).map (pattern ++ ·)) nc' ∧
      Enumerates new fun r =>
        NoCrack (back prev) prev size ∧ Tail (back prev) (NoCrack (back prev) prev) size r := by
  split_ifs with hFits
  · obtain ⟨new, nc', hCall, hExtends, hNew⟩ := hSearch
    have hOk := (fits_iff hSorted).mp hFits
    refine ⟨new, nc', ?_, ?_, hNew.congr fun r => (and_iff_right hOk).symm⟩
    · rw [hCall, List.dropLast_concat]
    · simpa [Function.comp_def] using hExtends
  · refine ⟨[], nc, rfl, extends_refl nc prev, enumerates_nil fun r h => ?_⟩
    exact hFits ((fits_iff hSorted).mpr h.1)

/-- Every neighbour is found once, and no other entry changes. -/
theorem neighbor_pattern_spec (hSorted : prev.Pairwise (· < ·)) (len : Nat) (pattern : Pattern)
    (nc : Neighbors) :
    ∃ new nc', neighbor_pattern prev len pattern nc = (pattern, nc') ∧
      Extends nc prev (new.map (pattern ++ ·)) nc' ∧
      Enumerates new (Tail (back prev) (NoCrack (back prev) prev) len) := by
  induction hMeasure : back prev - len using Nat.strongRecOn generalizing len pattern nc with
  | ind n ih =>
      rw [neighbor_pattern]
      by_cases hEnd : back prev ≤ len
      · rw [if_pos hEnd]
        refine ⟨_, _, rfl, ?_, enumerates_end hEnd⟩
        split_ifs with hExact
        · simpa using extends_set nc prev pattern
        · exact extends_refl nc prev
      · rw [if_neg hEnd]
        obtain ⟨new2, nc2, hTwo, hExtends2, hNew2⟩ :=
          brick_spec hSorted (ih _ (by omega) (len + 2) (pattern ++ [len + 2]) nc rfl)
        obtain ⟨new3, nc3, hThree, hExtends3, hNew3⟩ :=
          brick_spec hSorted (ih _ (by omega) (len + 3) (pattern ++ [len + 3]) nc2 rfl)
        refine ⟨_, nc3, ?_, ?_, enumerates_step (Nat.lt_of_not_le hEnd) hNew2 hNew3⟩
        · simp only [hTwo]
          exact hThree
        · rw [List.map_append]
          exact hExtends2.trans hExtends3

end CppPerf.Counting
