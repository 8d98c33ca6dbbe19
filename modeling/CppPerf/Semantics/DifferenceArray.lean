import CppPerf.Semantics.Vec
import Mathlib.Algebra.BigOperators.Group.Finset.Basic
import Mathlib.Algebra.BigOperators.Intervals
import Mathlib.Algebra.Group.Basic

/-! Levels that are stored as the differences between neighbours. A window
changes two cells, however long it is. -/
namespace Indexed

variable {G : Type*} [AddCommGroup G]

namespace Vec

/-- The sum of the cells up to and including the given one. -/
def level (v : Vec G) (t : Nat) : G := ∑ i ∈ Finset.range (t + 1), v.get i

/-- Raise the levels from `first` on, and lower them again from `last` on. -/
def raise (v : Vec G) (first last : Nat) (x : G) : Vec G :=
  let v := v.set first (v.get first + x)
  v.set last (v.get last - x)

variable (v : Vec G)

@[simp] theorem level_zero : v.level 0 = v.get 0 := by simp [level]

theorem level_succ (t : Nat) : v.level (t + 1) = v.level t + v.get (t + 1) :=
  Finset.sum_range_succ _ _

@[simp] theorem size_raise (first last : Nat) (x : G) : (v.raise first last x).size = v.size := rfl

theorem get_raise {first last : Nat} (h : first < last) (x : G) (t : Nat) :
    (v.raise first last x).get t =
      v.get t + ((if t = first then x else 0) - if t = last then x else 0) := by
  rw [raise, get_set, get_set_of_ne _ _ h.ne', get_set]
  split_ifs with hLast hFirst
  · exact absurd (hFirst.symm.trans hLast) h.ne
  · rw [hLast, zero_sub, sub_eq_add_neg]
  · rw [sub_zero, ‹t = first›]
  · rw [sub_zero, add_zero]

/-- Exactly the levels inside of the window change. -/
theorem level_raise {first last : Nat} (h : first < last) (x : G) (t : Nat) :
    (v.raise first last x).level t = v.level t + if first ≤ t ∧ t < last then x else 0 := by
  induction t with
  | zero =>
      rw [level_zero, level_zero, get_raise v h]
      have hLast : ¬0 = last := by omega
      by_cases hFirst : first = 0
      · simp [hFirst, hLast, Nat.pos_of_ne_zero (Ne.symm hLast)]
      · have hNever : ¬0 = first := Ne.symm hFirst
        simp [hFirst, hNever, hLast]
  | succ t ih =>
      rw [level_succ, level_succ, ih, get_raise v h, add_add_add_comm]
      congr 1
      by_cases hFirst : t + 1 = first
      · rw [if_neg (by omega), if_pos hFirst, if_neg (by omega), if_pos (by omega)]
        rw [sub_zero, zero_add]
      · by_cases hLast : t + 1 = last
        · rw [if_pos (by omega), if_neg hFirst, if_pos hLast, if_neg (by omega)]
          rw [zero_sub, add_neg_cancel]
        · rw [if_neg hFirst, if_neg hLast, sub_zero, add_zero]
          exact if_congr (by omega) rfl rfl

end Vec
end Indexed
