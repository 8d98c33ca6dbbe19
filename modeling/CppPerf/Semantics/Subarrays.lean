import CppPerf.Semantics.Enumeration
import Mathlib.Algebra.Order.BigOperators.Group.List
import Mathlib.Algebra.Order.Ring.Int

/-! The contiguous subarrays of a list of integers with a given sum. -/
namespace Subarrays

open Enumeration

variable {A l : List Int} {S a : Int} {i j n : Nat}

/-- The sum of the first elements. -/
def prefixSum (A : List Int) (i : Nat) : Int := (A.take i).sum

/-- A subarray is given by the position of its first element and by the one behind its last. -/
def IsSubarray (A : List Int) (S : Int) (p : Nat × Nat) : Prop :=
  p.1 < p.2 ∧ p.2 ≤ A.length ∧ ((A.take p.2).drop p.1).sum = S

/-- The subarrays that end behind position `j`. -/
def ending (A : List Int) (S : Int) (j : Nat) : List Nat :=
  (List.range (j + 1)).filter fun i => prefixSum A (j + 1) = prefixSum A i + S

def number (A : List Int) (S : Int) : Nat :=
  ((List.range A.length).map fun j => (ending A S j).length).sum

theorem prefixSum_zero (A : List Int) : prefixSum A 0 = 0 := rfl

theorem prefixSum_append (h : i ≤ A.length) : prefixSum (A ++ l) i = prefixSum A i := by
  rw [prefixSum, List.take_append_of_le_length h, prefixSum]

theorem prefixSum_length : prefixSum A A.length = A.sum := by
  rw [prefixSum, List.take_length]

theorem sum_drop_take (h : i ≤ j) :
    ((A.take j).drop i).sum = prefixSum A j - prefixSum A i := by
  have hSplit := congrArg List.sum (List.take_append_drop i (A.take j))
  rw [List.sum_append, List.take_take, Nat.min_eq_left h] at hSplit
  rw [prefixSum, prefixSum]
  omega

theorem encard_subarrays (A : List Int) (S : Int) :
    {p | IsSubarray A S p}.encard = number A S := by
  have hEnum : Enumerates ((List.range A.length).flatMap fun j =>
      (ending A S j).map fun i => (i, j + 1)) (IsSubarray A S) := by
    constructor
    · rw [List.nodup_flatMap]
      constructor
      · intro j _
        exact (List.nodup_range.filter _).map fun _ _ hEq => (Prod.mk.inj hEq).1
      · refine List.nodup_range.imp fun hNe p hp hp' => hNe ?_
        obtain ⟨i, -, rfl⟩ := List.mem_map.mp hp
        obtain ⟨i', -, hEq⟩ := List.mem_map.mp hp'
        exact Nat.succ.inj (Prod.mk.inj hEq).2.symm
    · rintro ⟨i, j⟩
      simp only [List.mem_flatMap, List.mem_map, List.mem_range, ending, List.mem_filter,
        decide_eq_true_eq, Prod.mk.injEq, IsSubarray]
      constructor
      · rintro ⟨k, hk, i, ⟨hi, hSum⟩, rfl, rfl⟩
        refine ⟨hi, hk, ?_⟩
        rw [sum_drop_take hi.le]
        omega
      · rintro ⟨hLt, hLe, hSum⟩
        rw [sum_drop_take hLt.le] at hSum
        refine ⟨j - 1, by omega, i, ⟨by omega, ?_⟩, rfl, by omega⟩
        rw [Nat.sub_add_cancel (by omega)]
        omega
  rw [hEnum.encard_eq, List.length_flatMap]
  simp only [List.length_map, number]

/-- The subarrays of a longer list are those that do not reach its last element, and others. -/
theorem number_concat (A : List Int) (S a : Int) :
    number (A ++ [a]) S = number A S + (ending (A ++ [a]) S A.length).length := by
  rw [number, List.length_append, List.length_singleton, List.range_succ, List.map_append,
    List.sum_append, List.map_singleton, List.sum_singleton, number]
  congr 2
  apply List.map_congr_left
  intro j hj
  rw [List.mem_range] at hj
  rw [ending, ending, prefixSum_append hj]
  congr 1
  apply List.filter_congr
  intro i hi
  rw [List.mem_range] at hi
  rw [prefixSum_append (by omega)]

section Nonneg

theorem prefixSum_concat (A : List Int) (a : Int) :
    prefixSum (A ++ [a]) (A.length + 1) = prefixSum A A.length + a := by
  have hLength : A.length + 1 = (A ++ [a]).length := by simp
  rw [hLength, prefixSum_length, prefixSum_length, List.sum_append, List.sum_singleton]

theorem prefixSum_mono (hNonneg : ∀ a ∈ A, 0 ≤ a) (h : i ≤ j) :
    prefixSum A i ≤ prefixSum A j := by
  have hSum := sum_drop_take (A := A) h
  have hPart : 0 ≤ ((A.take j).drop i).sum :=
    List.sum_nonneg fun a ha => hNonneg a (List.mem_of_mem_take (List.mem_of_mem_drop ha))
  omega

/-- How often the sum of the whole list is reached. -/
def level (A : List Int) : Nat :=
  (List.range (A.length + 1)).countP fun i => prefixSum A i = prefixSum A A.length

theorem countP_concat (A : List Int) (a v : Int) :
    (List.range (A.length + 2)).countP (prefixSum (A ++ [a]) · = v) =
      (List.range (A.length + 1)).countP (prefixSum A · = v) +
        if prefixSum A A.length + a = v then 1 else 0 := by
  rw [List.range_succ, List.countP_append, List.countP_singleton, prefixSum_concat]
  congr 1
  · apply List.countP_congr
    intro i hi
    rw [List.mem_range] at hi
    rw [prefixSum_append (by omega)]
  · simp

theorem level_concat_zero (A : List Int) : level (A ++ [0]) = level A + 1 := by
  rw [level, List.length_append, List.length_singleton, countP_concat, prefixSum_concat,
    Int.add_zero, if_pos rfl, level]

theorem level_concat_of_pos (hNonneg : ∀ a ∈ A, 0 ≤ a) (ha : 0 < a) : level (A ++ [a]) = 1 := by
  rw [level, List.length_append, List.length_singleton, countP_concat, prefixSum_concat, if_pos rfl,
    Nat.add_eq_right, List.countP_eq_zero]
  intro i hi
  rw [List.mem_range] at hi
  have hMono := prefixSum_mono hNonneg (i := i) (j := A.length) (by omega)
  simp only [decide_eq_true_eq]
  omega

theorem number_concat_zero (A : List Int) : number (A ++ [0]) 0 = number A 0 + level A := by
  rw [number_concat, ending, level, List.countP_eq_length_filter]
  congr 2
  apply List.filter_congr
  intro i hi
  rw [List.mem_range] at hi
  rw [prefixSum_concat, prefixSum_append (by omega), Int.add_zero, Int.add_zero]
  simp [eq_comm]

theorem number_concat_of_pos (hNonneg : ∀ a ∈ A, 0 ≤ a) (ha : 0 < a) :
    number (A ++ [a]) 0 = number A 0 := by
  rw [number_concat, ending, List.filter_eq_nil_iff.mpr, List.length_nil, Nat.add_zero]
  intro i hi
  rw [List.mem_range] at hi
  have hMono := prefixSum_mono hNonneg (i := i) (j := A.length) (by omega)
  rw [prefixSum_concat, prefixSum_append (by omega)]
  simp only [decide_eq_true_eq]
  omega

/-- The sums of the first elements, one for each position. -/
def prefixSums (A : List Int) : List Int := (List.range A.length).map fun k => prefixSum A (k + 1)

theorem count_prefixSums (A : List Int) (v : Int) :
    (0 :: prefixSums A).count v = (List.range (A.length + 1)).countP (prefixSum A · = v) := by
  have hMap : (0 :: prefixSums A) = (List.range (A.length + 1)).map (prefixSum A) := by
    rw [List.range_succ_eq_map, List.map_cons, List.map_map]
    rfl
  rw [hMap, List.count, List.countP_map]
  rfl

theorem number_of_pos (hNonneg : ∀ a ∈ A, 0 ≤ a) (hS : 0 < S) :
    number A S = ((prefixSums A).map fun x => (0 :: prefixSums A).count (x - S)).sum := by
  rw [number, prefixSums, List.map_map]
  congr 1
  apply List.map_congr_left
  intro j hj
  rw [List.mem_range] at hj
  have hSplit : A.length + 1 = j + 1 + (A.length - j) := by omega
  rw [Function.comp_apply, ← prefixSums, count_prefixSums, ending, ← List.countP_eq_length_filter,
    hSplit, List.range_add (n := j + 1), List.countP_append]
  have hRest : ((List.range (A.length - j)).map (j + 1 + ·)).countP
      (prefixSum A · = prefixSum A (j + 1) - S) = 0 := by
    rw [List.countP_eq_zero]
    intro i hi
    obtain ⟨k, -, rfl⟩ := List.mem_map.mp hi
    have hMono := prefixSum_mono hNonneg (i := j + 1) (j := j + 1 + k) (by omega)
    simp only [decide_eq_true_eq]
    omega
  rw [hRest, Nat.add_zero]
  apply List.countP_congr
  intro i _
  simp only [decide_eq_true_eq]
  omega

end Nonneg
end Subarrays
