import CppPerf.Semantics.Ranking
import Mathlib.Algebra.Ring.Int.Defs
import Mathlib.Algebra.Ring.Nat
import Mathlib.Data.List.Basic

/-! The selection of `practice.cpp`. An iterator is an index, and reading or swapping
outside of the array fails. A range begins before its end. -/
namespace CppPerf.Selection

section Algorithms

variable {α : Type}

def iter_swap (a b : Nat) (arr : List α) : Option (List α) :=
  if a < arr.length ∧ b < arr.length then some (arr.swap a b) else none

/-- The first loop of `my_partition`. The first argument is what is left of the range.
The comparison reads the array as it is at the time. -/
def skip (comp : List α → α → Option Bool) (arr : List α) : (left second : Nat) → Option Nat
  | 0, second => some second
  | left + 1, second => do
      let t ← arr[second]?
      let smaller ← comp arr t
      if smaller then skip comp arr left (second + 1) else some second

/-- The second loop. -/
def sweep (comp : List α → α → Option Bool) :
    (left first second : Nat) → List α → Option (List α × Nat)
  | 0, _, second, arr => some (arr, second)
  | left + 1, first, second, arr => do
      let t ← arr[first]?
      let smaller ← comp arr t
      if smaller then do
        let arr ← iter_swap first second arr
        sweep comp left (first + 1) (second + 1) arr
      else sweep comp left (first + 1) second arr

def my_partition (first last : Nat) (comp : List α → α → Option Bool) (arr : List α) :
    Option (List α × Nat) := do
  let second ← skip comp arr (last - first) first
  if second = last then some (arr, second)
  else sweep comp (last - (second + 1)) (second + 1) second arr

variable [LT α] [DecidableLT α]

/-- The loop of `min_element`. -/
def minFrom (arr : List α) : (left first smallest : Nat) → Option Nat
  | 0, _, smallest => some smallest
  | left + 1, first, smallest => do
      let a ← arr[first]?
      let b ← arr[smallest]?
      minFrom arr left (first + 1) (if a < b then first else smallest)

def min_element (first last : Nat) (arr : List α) : Option Nat :=
  if first = last then some last else minFrom arr (last - (first + 1)) (first + 1) first

end Algorithms

/-- Conversion to `int`. -/
def int (x : Int) : Int := x.bmod (2 ^ 32)

/-- The comparison of `nth_smallest`, with what is at `first` at the time. -/
def below (first : Nat) (arr : List Int) (t : Int) : Option Bool :=
  arr[first]?.map fun a => decide (t < a)

/-- The loop of `nth_smallest`, which goes on for so many rounds at most. The position is
an `int`. -/
def select (n : Int) : (rounds first last : Nat) → List Int → Option Int
  | 0, _, _, _ => none
  | rounds + 1, first, last, arr =>
      if first ≠ last then do
        let (arr, pivot) ← my_partition first last (below first) arr
        let pos := int pivot
        if pos = n - 1 then do
          let minimum ← min_element pivot arr.length arr
          let arr ← if minimum ≠ pivot then iter_swap minimum pivot arr else some arr
          arr[pivot]?
        else if pos < n - 1 then
          if first = pivot then select n rounds (first + 1) last arr
          else select n rounds pivot last arr
        else select n rounds first pivot arr
      else arr[first]?

def nth_smallest (rounds : Nat) (arr : List Int) (n : Int) : Option Int :=
  select n rounds 0 arr.length arr

/-! `nth_smallest` returns the element of rank `n`. The first swap of a round replaces
the element that the others are compared with by a smaller one, and from then on it
stays, so the range is still split. A position of `2 ^ 31` or more is taken for another
one. -/

open Ranking

/-- The part of a range that is before `first` is split at `second` by the element that
the others are compared with. -/
structure Parted (lo second first : Nat) (x : Int) (arr : List Int) : Prop where
  head : arr[lo]? = some x
  le : lo ≤ second
  lt : second < first
  before : Within lo second (· ≤ x) arr
  rest : Within second first (x ≤ ·) arr

section Partition

variable {lo second first last left : Nat} {x t : Int} {arr : List Int}

theorem Parted.start (h : arr[lo]? = some x) : Parted lo lo (lo + 1) x arr where
  head := h
  le := Nat.le_refl lo
  lt := Nat.lt_succ_self lo
  before := Within.nil (Nat.le_refl lo)
  rest := (Within.nil (Nat.le_refl lo)).snoc h (le_refl x)

theorem Parted.stay (h : Parted lo second first x arr) (ht : arr[first]? = some t)
    (hGe : ¬t < x) : Parted lo second (first + 1) x arr where
  head := h.head
  le := h.le
  lt := Nat.lt_succ_of_lt h.lt
  before := h.before
  rest := h.rest.snoc ht (not_lt.mp hGe)

/-- The first swap takes the new element to the front. -/
theorem Parted.swap_first (h : Parted lo lo first x arr) (ht : arr[first]? = some t)
    (hLt : t < x) : Parted lo (lo + 1) (first + 1) t (arr.swap first lo) := by
  have hFirst := (List.getElem?_eq_some_iff.mp ht).1
  have hLo := (List.getElem?_eq_some_iff.mp h.head).1
  have hHead : (arr.swap first lo)[lo]? = some t := by
    rw [getElem?_swap_right hFirst hLo, ht]
  refine ⟨hHead, Nat.le_succ lo, Nat.succ_lt_succ h.lt, ?_, ?_⟩
  · exact (Within.nil (Nat.le_refl lo)).snoc hHead (le_refl t)
  · have hOld : Within (lo + 1) first (t ≤ ·) (arr.swap first lo) := by
      intro i a hi hi' ha
      rw [getElem?_swap_of_ne (by omega) (by omega)] at ha
      exact hLt.le.trans (h.rest i a (by omega) hi' ha)
    refine hOld.snoc ?_ hLt.le
    rw [getElem?_swap_left hFirst hLo, h.head]

/-- A later swap leaves the front as it is. -/
theorem Parted.swap_later (h : Parted lo second first x arr) (hLater : lo < second)
    (ht : arr[first]? = some t) (hLt : t < x) :
    Parted lo (second + 1) (first + 1) x (arr.swap first second) := by
  have hFirst := (List.getElem?_eq_some_iff.mp ht).1
  have hSecond : second < arr.length := h.lt.trans hFirst
  have hLt' := h.lt
  refine ⟨?_, by omega, Nat.succ_lt_succ h.lt, ?_, ?_⟩
  · rw [getElem?_swap_of_ne (by omega) (by omega), h.head]
  · have hOld : Within lo second (· ≤ x) (arr.swap first second) := by
      intro i a hi hi' ha
      rw [getElem?_swap_of_ne (by omega) (by omega)] at ha
      exact h.before i a hi hi' ha
    refine hOld.snoc ?_ hLt.le
    rw [getElem?_swap_right hFirst hSecond, ht]
  · have hOld : Within (second + 1) first (x ≤ ·) (arr.swap first second) := by
      intro i a hi hi' ha
      rw [getElem?_swap_of_ne (by omega) (by omega)] at ha
      exact h.rest i a (by omega) hi' ha
    intro i a hi hi' ha
    rcases Nat.lt_succ_iff_lt_or_eq.mp hi' with hBefore | rfl
    · exact hOld i a hi hBefore ha
    · rw [getElem?_swap_left hFirst hSecond] at ha
      exact h.rest second a (Nat.le_refl _) h.lt ha

theorem Parted.swap (h : Parted lo second first x arr) (ht : arr[first]? = some t)
    (hLt : t < x) : ∃ y, Parted lo (second + 1) (first + 1) y (arr.swap first second) := by
  rcases Nat.eq_or_lt_of_le h.le with rfl | hLater
  · exact ⟨t, h.swap_first ht hLt⟩
  · exact ⟨x, h.swap_later hLater ht hLt⟩

theorem sweep_spec (h : Parted lo second first x arr) (hLast : first + left ≤ arr.length) :
    ∃ arr' pivot y, sweep (below lo) left first second arr = some (arr', pivot) ∧
      Swaps lo (first + left) arr arr' ∧ Parted lo pivot (first + left) y arr' := by
  induction left generalizing first second x arr with
  | zero => exact ⟨arr, second, x, rfl, Swaps.refl _ _ _, h⟩
  | succ left ih =>
      have hFirst : first < arr.length := by omega
      have hLe := h.le
      have hLt := h.lt
      obtain ⟨t, ht⟩ : ∃ t, arr[first]? = some t := ⟨_, List.getElem?_eq_getElem hFirst⟩
      have hComp : below lo arr t = some (decide (t < x)) := by rw [below, h.head, Option.map_some]
      have hEnd : first + (left + 1) = first + 1 + left := by omega
      rw [sweep, ht, Option.bind_eq_bind, Option.bind_some, hComp,
        Option.bind_eq_bind, Option.bind_some, hEnd]
      by_cases hSmaller : t < x
      · obtain ⟨y, hy⟩ := h.swap ht hSmaller
        have hSwap : iter_swap first second arr = some (arr.swap first second) :=
          if_pos ⟨hFirst, hLt.trans hFirst⟩
        obtain ⟨arr', pivot, z, hRun, hSwaps, hz⟩ := ih hy (by rw [List.length_swap]; omega)
        rw [if_pos (decide_eq_true hSmaller), hSwap]
        refine ⟨arr', pivot, z, hRun, (Swaps.swap ?_ ?_).trans hSwaps, hz⟩
        · omega
        · omega
      · rw [if_neg (by simpa using hSmaller)]
        exact ih (h.stay ht hSmaller) (by omega)

theorem my_partition_spec (hLt : lo < last) (hLast : last ≤ arr.length) :
    ∃ arr' pivot x, my_partition lo last (below lo) arr = some (arr', pivot) ∧
      Swaps lo last arr arr' ∧ Parted lo pivot last x arr' := by
  obtain ⟨x, hx⟩ : ∃ x, arr[lo]? = some x := ⟨_, List.getElem?_eq_getElem (hLt.trans_le hLast)⟩
  have hSkip : skip (below lo) arr (last - lo) lo = some lo := by
    have hLeft : last - lo = (last - (lo + 1)) + 1 := by omega
    have hComp : below lo arr x = some false := by
      rw [below, hx, Option.map_some, decide_eq_false (lt_irrefl x)]
    rw [hLeft, skip, hx, Option.bind_eq_bind, Option.bind_some, hComp]
    rfl
  have hEnd : lo + 1 + (last - (lo + 1)) = last := by omega
  have hSweep := sweep_spec (Parted.start hx)
    (show lo + 1 + (last - (lo + 1)) ≤ arr.length by omega)
  rw [hEnd] at hSweep
  rw [my_partition, hSkip, Option.bind_eq_bind, Option.bind_some, if_neg (by omega)]
  exact hSweep

end Partition

section Minimum

variable {lo first left : Nat} {arr : List Int} {m : Int}

theorem minFrom_spec {smallest : Nat} (hLow : lo ≤ smallest) (hm : arr[smallest]? = some m)
    (hMin : Within lo first (m ≤ ·) arr) (hFirst : smallest < first)
    (hLast : first + left ≤ arr.length) :
    ∃ j m, minFrom arr left first smallest = some j ∧ lo ≤ j ∧ arr[j]? = some m ∧
      Within lo (first + left) (m ≤ ·) arr := by
  induction left generalizing first smallest m with
  | zero => exact ⟨smallest, m, rfl, hLow, hm, hMin⟩
  | succ left ih =>
      obtain ⟨a, ha⟩ : ∃ a, arr[first]? = some a :=
        ⟨_, List.getElem?_eq_getElem (show first < arr.length by omega)⟩
      have hEnd : first + (left + 1) = first + 1 + left := by omega
      rw [minFrom, ha, hm, Option.bind_eq_bind, Option.bind_some, Option.bind_some, hEnd]
      split_ifs with hLess
      · refine ih (hLow.trans hFirst.le) ha ?_ ?_ (by omega)
        · exact (hMin.imp fun b hb => hLess.le.trans hb).snoc ha (le_refl a)
        · exact Nat.lt_succ_self first
      · refine ih hLow hm (hMin.snoc ha (not_lt.mp hLess)) ?_ (by omega)
        exact Nat.lt_succ_of_lt hFirst

/-- The smallest element from the place on, and its rank if the array is split there. -/
theorem minimum_spec (hLo : lo < arr.length) (h : SplitsAt lo arr) :
    (do
      let minimum ← min_element lo arr.length arr
      let arr ← if minimum ≠ lo then iter_swap minimum lo arr else some arr
      arr[lo]?) = (arr.mergeSort fun a b => a ≤ b)[lo]? := by
  obtain ⟨m, hm⟩ : ∃ m, arr[lo]? = some m := ⟨_, List.getElem?_eq_getElem hLo⟩
  obtain ⟨j, m, hRun, hj, hm, hMin⟩ := minFrom_spec (Nat.le_refl lo) hm
    ((Within.nil (Nat.le_refl lo)).snoc hm (le_refl m)) (Nat.lt_succ_self lo)
    (show lo + 1 + (arr.length - (lo + 1)) ≤ arr.length by omega)
  have hEnd : lo + 1 + (arr.length - (lo + 1)) = arr.length := by omega
  have hElement : min_element lo arr.length arr = some j := by
    rw [min_element, if_neg (by omega), hRun]
  rw [hEnd] at hMin
  rw [h.rank hj hm hMin, hElement, Option.bind_eq_bind, Option.bind_some]
  split_ifs with hSame
  · have hLength := (List.getElem?_eq_some_iff.mp hm).1
    have hSwap : iter_swap j lo arr = some (arr.swap j lo) := if_pos ⟨hLength, hLo⟩
    have hRead : (arr.swap j lo)[lo]? = some m := by
      rw [getElem?_swap_right hLength hLo, hm]
    rw [hSwap]
    exact hRead
  · rw [not_ne_iff.mp hSame] at hm
    exact hm

end Minimum

section Select

variable {n rounds first last : Nat} {arr : List Int}

theorem select_spec (hFirst : SplitsAt first arr) (hLast : SplitsAt last arr)
    (hn : first ≤ n ∧ n < last) (hLength : last ≤ arr.length) (hSize : arr.length ≤ 2 ^ 31)
    (hRounds : last ≤ first + rounds) :
    select (n + 1) rounds first last arr = (arr.mergeSort fun a b => a ≤ b)[n]? := by
  induction rounds generalizing first last arr with
  | zero => omega
  | succ rounds ih =>
      obtain ⟨arr', pivot, x, hRun, hSwaps, hx⟩ :=
        my_partition_spec (hn.1.trans_lt hn.2) hLength
      have hLe := hx.le
      have hLt := hx.lt
      have hLength' := hSwaps.length_eq
      have hFirst' := hFirst.swaps hSwaps (Or.inl (Nat.le_refl first))
      have hLast' := hLast.swaps hSwaps (Or.inr (Nat.le_refl last))
      have hPivot := hFirst'.between hLast' ⟨hLe, hLt.le⟩ hx.before hx.rest
      have hPos : int pivot = pivot := by
        rw [int, Int.bmod_eq_of_le] <;> omega
      rw [select, if_pos (by omega), hRun, Option.bind_eq_bind, Option.bind_some,
        ← mergeSort_congr hSwaps.perm]
      dsimp only
      rw [hPos]
      split_ifs with hHere hRight hFront
      · obtain rfl : pivot = n := by omega
        exact minimum_spec (by omega) hPivot
      · have hNext : SplitsAt (first + 1) arr' := by
          refine hFirst'.between hLast' ⟨Nat.le_succ first, by omega⟩
            ((Within.nil (Nat.le_refl first)).snoc hx.head (le_refl x)) ?_
          exact hx.rest.sub (by omega) (Nat.le_refl last)
        exact ih hNext hLast' (by omega) (by omega) (by omega) (by omega)
      · exact ih hPivot hLast' (by omega) (by omega) (by omega) (by omega)
      · exact ih hFirst' hPivot (by omega) (by omega) (by omega) (by omega)

end Select

/-- With the positions in an `int`, the element of the rank is returned within as many
rounds as there are elements. -/
theorem nth_smallest_eq (arr : List Int) (n rounds : Nat) (hSize : arr.length ≤ 2 ^ 31)
    (hn : 1 ≤ n ∧ n ≤ arr.length) (hRounds : arr.length ≤ rounds) :
    nth_smallest rounds arr n = (arr.mergeSort fun a b => a ≤ b)[n - 1]? := by
  have hSelect := select_spec (n := n - 1) (splitsAt_zero arr) (splitsAt_length arr)
    (by omega) (Nat.le_refl _) hSize (by omega : arr.length ≤ 0 + rounds)
  have hRank : ((n - 1 : Nat) : Int) + 1 = n := by omega
  rwa [hRank] at hSelect

/-- Duplicates count. -/
theorem nth_smallest_duplicates :
    nth_smallest 5 [40, 50, 20, 20, 30] 2 = some 20 ∧
      nth_smallest 5 [40, 50, 20, 20, 30] 3 = some 30 := by
  have hSorted : ([40, 50, 20, 20, 30] : List Int).mergeSort (fun a b => a ≤ b) =
      [20, 20, 30, 40, 50] :=
    (List.mergeSort_eq_insertionSort (r := (· ≤ ·)) _).trans (by decide)
  have hTwo := nth_smallest_eq [40, 50, 20, 20, 30] 2 5 (by decide) (by decide) (by decide)
  have hThree := nth_smallest_eq [40, 50, 20, 20, 30] 3 5 (by decide) (by decide) (by decide)
  rw [hSorted] at hTwo hThree
  exact ⟨hTwo, hThree⟩

section Long

variable {m : Nat}

/-- The two goes to the end, one place after the other. -/
theorem sweep_zeros (left k : Nat) :
    sweep (below 0) left (k + 2) (k + 1)
        (1 :: (List.replicate k 0 ++ 2 :: List.replicate left 0)) =
      some (1 :: (List.replicate (k + left) 0 ++ [2]), k + 1 + left) := by
  induction left generalizing k with
  | zero => rfl
  | succ left ih =>
      have hRead : (1 :: (List.replicate k 0 ++ 2 :: List.replicate (left + 1) 0))[k + 2]? =
          some (0 : Int) := by
        have hFront : (List.replicate k (0 : Int)).length = k := List.length_replicate
        rw [List.getElem?_cons_succ, List.getElem?_append_right (by omega), hFront,
          Nat.add_sub_cancel_left]
        rfl
      have hSwap : iter_swap (k + 2) (k + 1)
          (1 :: (List.replicate k 0 ++ 2 :: List.replicate (left + 1) 0)) =
            some (1 :: (List.replicate (k + 1) 0 ++ 2 :: List.replicate left (0 : Int))) := by
        have hMiddle := swap_middle (List.replicate k (0 : Int)) 2 0 (List.replicate left 0)
        rw [List.length_replicate] at hMiddle
        rw [iter_swap, if_pos, List.swap_cons, List.replicate_succ, hMiddle, List.replicate_succ',
          List.append_assoc]
        · rfl
        · rw [List.length_cons, List.length_append, List.length_cons, List.length_replicate,
            List.length_replicate]
          omega
      have hComp : below 0 (1 :: (List.replicate k 0 ++ 2 :: List.replicate (left + 1) 0)) 0 =
          some true := rfl
      rw [sweep, hRead, Option.bind_eq_bind, Option.bind_some, hComp, Option.bind_eq_bind,
        Option.bind_some, if_pos rfl, hSwap, Option.bind_eq_bind, Option.bind_some, ih,
        Nat.add_right_comm k 1 left, Nat.add_right_comm (k + 1) 1 left, Nat.add_assoc k left 1]
      rfl

theorem my_partition_zeros (m : Nat) :
    my_partition 0 (m + 2) (below 0) (2 :: 1 :: List.replicate m 0) =
      some (1 :: (List.replicate m 0 ++ [2]), m + 1) := by
  have hSkip : skip (below 0) (2 :: 1 :: List.replicate m 0) (m + 2 - 0) 0 = some 0 := rfl
  have hSweep : sweep (below 0) (m + 1) 1 0 (2 :: 1 :: List.replicate m 0) =
      sweep (below 0) m 2 1 (1 :: 2 :: List.replicate m 0) := rfl
  have hZeros := sweep_zeros m 0
  rw [Nat.zero_add, Nat.zero_add, Nat.zero_add] at hZeros
  rw [my_partition, hSkip, Option.bind_eq_bind, Option.bind_some, if_neg (by omega)]
  rw [Nat.add_comm m 1]
  exact hSweep.trans hZeros

/-- The position `2 ^ 31` is taken for a negative one, and the search goes on at the end
of the array and then behind it. -/
theorem nth_smallest_zeros (hm : m + 1 = 2 ^ 31) (rounds : Nat) :
    nth_smallest rounds (2 :: 1 :: List.replicate m 0) 1 = none := by
  have hPos : int (m + 1 : Nat) = -2 ^ 31 := by
    rw [int, hm]
    rfl
  have hLength : (1 :: (List.replicate m (0 : Int) ++ [2])).length = m + 2 := by
    rw [List.length_cons, List.length_append, List.length_replicate, List.length_singleton]
  rw [nth_smallest, List.length_cons, List.length_cons, List.length_replicate]
  cases rounds with
  | zero => rfl
  | succ rounds =>
      rw [select, if_pos (by omega), my_partition_zeros, Option.bind_eq_bind, Option.bind_some]
      dsimp only
      rw [hPos, if_neg (by decide), if_pos (by decide), if_neg (by omega)]
      cases rounds with
      | zero => rfl
      | succ rounds =>
          obtain ⟨arr, pivot, x, hRun, hSwaps, hx⟩ :=
            my_partition_spec (show m + 1 < m + 2 by omega) (le_of_eq hLength.symm)
          obtain rfl : pivot = m + 1 := by
            have hLe := hx.le
            have hLt := hx.lt
            omega
          rw [select, if_pos (by omega), hRun, Option.bind_eq_bind, Option.bind_some]
          dsimp only
          rw [hPos, if_neg (by decide), if_pos (by decide), if_pos rfl]
          cases rounds with
          | zero => rfl
          | succ rounds =>
              rw [select, if_neg (by omega)]
              exact List.getElem?_eq_none (le_of_eq (hSwaps.length_eq.trans hLength))

/-- The smallest of `2 ^ 31 + 1` elements is zero, and nothing is returned. -/
theorem nth_smallest_long :
    (2 :: 1 :: List.replicate (2 ^ 31 - 1) (0 : Int)).length = 2 ^ 31 + 1 ∧
      ((2 :: 1 :: List.replicate (2 ^ 31 - 1) (0 : Int)).mergeSort fun a b => a ≤ b)[0]? =
        some 0 ∧
      ∀ rounds, nth_smallest rounds (2 :: 1 :: List.replicate (2 ^ 31 - 1) 0) 1 = none := by
  have hm : 2 ^ 31 - 1 + 1 = 2 ^ 31 := by omega
  generalize 2 ^ 31 - 1 = m at hm ⊢
  refine ⟨?_, ?_, nth_smallest_zeros hm⟩
  · rw [List.length_cons, List.length_cons, List.length_replicate, hm]
  · have hRead : (2 :: 1 :: List.replicate m (0 : Int))[2]? = some 0 := by
      rw [List.getElem?_cons_succ, List.getElem?_cons_succ, List.getElem?_replicate,
        if_pos (by omega)]
    refine (splitsAt_zero _).rank (Nat.zero_le 2) hRead ?_
    intro i a _ _ ha
    have hMem := List.mem_of_getElem? ha
    rw [List.mem_cons, List.mem_cons, List.mem_replicate] at hMem
    rcases hMem with rfl | rfl | ⟨-, rfl⟩
    · decide
    · decide
    · exact le_refl 0

end Long
end CppPerf.Selection
