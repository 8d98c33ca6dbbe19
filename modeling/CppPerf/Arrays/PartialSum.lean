import CppPerf.Text.Digits
import Mathlib.Algebra.BigOperators.Group.List.Basic
import Mathlib.Algebra.Order.Ring.Int
import Mathlib.Data.List.Induction

/-! `partial_sum`, in place, and `accumulate` over an array of type `int`. -/
namespace CppPerf.Arrays

open Text

/-- The sums with the elements that follow. -/
def sums_after (sum : Int) : List Int → List Int
  | [] => []
  | x :: rest => int (sum + x) :: sums_after (int (sum + x)) rest

def partial_sum : List Int → List Int
  | [] => []
  | x :: rest => x :: sums_after x rest

variable {l : List Int} {x sum total : Int} {k : Nat}

theorem int_eq_self (hLow : -2 ^ 31 ≤ x) (hHigh : x < 2 ^ 31) : int x = x :=
  Int.bmod_eq_of_le (by omega) (by omega)

theorem int_int_add (sum x : Int) : int (int sum + x) = int (sum + x) := Int.bmod_add_bmod

@[simp] theorem length_sums_after (sum : Int) (l : List Int) :
    (sums_after sum l).length = l.length := by
  induction l generalizing sum with
  | nil => rfl
  | cons x rest ih => rw [sums_after, List.length_cons, ih, List.length_cons]

@[simp] theorem length_partial_sum (l : List Int) : (partial_sum l).length = l.length := by
  cases l with
  | nil => rfl
  | cons x rest => rw [partial_sum, List.length_cons, length_sums_after, List.length_cons]

theorem getElem?_sums_after (h : sum = int total) (hk : k < l.length) :
    (sums_after sum l)[k]? = some (int (total + (l.take (k + 1)).sum)) := by
  induction l generalizing sum total k with
  | nil => exact absurd hk (Nat.not_lt_zero k)
  | cons x rest ih =>
      have hSum : int (sum + x) = int (total + x) := by rw [h, int_int_add]
      rw [sums_after, hSum]
      cases k with
      | zero => simp
      | succ k =>
          rw [List.getElem?_cons_succ, ih rfl (Nat.lt_of_succ_lt_succ hk), List.take_succ_cons,
            List.sum_cons, Int.add_assoc]

/-- An entry is the sum of the elements up to its position, as an `int`. -/
theorem getElem?_partial_sum (hHead : ∀ x ∈ l.head?, int x = x) (hk : k < l.length) :
    (partial_sum l)[k]? = some (int (l.take (k + 1)).sum) := by
  cases l with
  | nil => exact absurd hk (Nat.not_lt_zero k)
  | cons x rest =>
      have hFirst := hHead x rfl
      rw [partial_sum]
      cases k with
      | zero => simp [hFirst]
      | succ k =>
          rw [List.getElem?_cons_succ, getElem?_sums_after hFirst.symm (Nat.lt_of_succ_lt_succ hk),
            List.take_succ_cons, List.sum_cons]

/-- `accumulate` from 0 on. -/
def accumulate (l : List Int) : Int := l.foldl (fun sum x => int (sum + x)) 0

theorem accumulate_eq (l : List Int) : accumulate l = int l.sum := by
  induction l using List.reverseRecOn with
  | nil => rfl
  | append_singleton l x ih =>
      rw [accumulate] at ih
      rw [accumulate, List.foldl_append, ih, List.foldl_cons, List.foldl_nil, int_int_add,
        List.sum_append, List.sum_singleton]

end CppPerf.Arrays
