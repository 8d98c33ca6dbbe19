import Mathlib.Algebra.Order.Group.Nat
import Mathlib.Data.Nat.Basic
import Mathlib.Tactic.Common

/-! Decimal numerals by their last digit. -/
namespace Numeral

/-- The last `k` digits of a number from the last on, with zeros before it. -/
def low : Nat → Nat → List Char
  | 0, _ => []
  | k + 1, n => Nat.digitChar (n % 10) :: low k (n / 10)

/-- The digits of a number from the last on. Zero has none. -/
def digits (n : Nat) : List Char := if n = 0 then [] else (Nat.toDigits 10 n).reverse

variable {n k : Nat}

@[simp] theorem length_low (k n : Nat) : (low k n).length = k := by
  induction k generalizing n with
  | zero => rfl
  | succ k ih => rw [low, List.length_cons, ih]

theorem digits_zero : digits 0 = [] := rfl

theorem digits_of_pos (h : 0 < n) : digits n = Nat.digitChar (n % 10) :: digits (n / 10) := by
  rw [digits, if_neg (Nat.ne_of_gt h), Nat.toDigits_eq_if (by decide), digits]
  split_ifs with hLt hRest
  · rw [List.reverse_singleton, Nat.mod_eq_of_lt hLt]
  · omega
  · omega
  · rw [List.reverse_append, List.reverse_singleton, List.singleton_append]

theorem reverse_digits (h : 0 < n) : (digits n).reverse = Nat.toDigits 10 n := by
  rw [digits, if_neg (Nat.ne_of_gt h), List.reverse_reverse]

theorem length_digits_le_iff : (digits n).length ≤ k ↔ n < 10 ^ k := by
  rw [digits]
  split_ifs with hZero
  · exact iff_of_true (Nat.zero_le k) (hZero ▸ Nat.pow_pos (by decide))
  · rw [List.length_reverse]
    cases k with
    | zero =>
        have hPos := Nat.length_toDigits_pos (b := 10) (n := n)
        rw [Nat.pow_zero]
        omega
    | succ k => exact Nat.length_toDigits_le_iff (by decide) (Nat.succ_pos k)

theorem length_digits_div (n k : Nat) :
    (digits (n / 10 ^ k)).length = (digits n).length - k := by
  induction k generalizing n with
  | zero => rw [Nat.pow_zero, Nat.div_one, Nat.sub_zero]
  | succ k ih =>
      rw [Nat.pow_succ', ← Nat.div_div_eq_div_mul, ih]
      rcases Nat.eq_zero_or_pos n with rfl | hPos
      · rw [Nat.zero_div, digits_zero, List.length_nil, Nat.zero_sub, Nat.zero_sub]
      · rw [digits_of_pos hPos, List.length_cons]
        omega

theorem low_append_digits (h : k ≤ (digits n).length) :
    low k n ++ digits (n / 10 ^ k) = digits n := by
  induction k generalizing n with
  | zero => rw [Nat.pow_zero, Nat.div_one]; rfl
  | succ k ih =>
      have hPos : 0 < n := by
        refine Nat.pos_of_ne_zero fun hZero => ?_
        rw [hZero] at h
        cases h
      have hLength : k ≤ (digits (n / 10)).length := by
        rw [digits_of_pos hPos, List.length_cons] at h
        exact Nat.le_of_succ_le_succ h
      rw [low, List.cons_append, Nat.pow_succ', ← Nat.div_div_eq_div_mul, ih hLength,
        digits_of_pos hPos]

/-- All digits of a number are its last ones. -/
theorem low_length (n : Nat) : low (digits n).length n = digits n := by
  have hNone : digits (n / 10 ^ (digits n).length) = [] := by
    rw [← List.length_eq_zero_iff, length_digits_div, Nat.sub_self]
  have hAll := low_append_digits (Nat.le_refl (digits n).length)
  rwa [hNone, List.append_nil] at hAll

theorem isDigit_of_mem_low {c : Char} (h : c ∈ low k n) : c.isDigit := by
  induction k generalizing n with
  | zero => cases h
  | succ k ih =>
      have hAll : ∀ d < 10, (Nat.digitChar d).isDigit := by decide
      rw [low, List.mem_cons] at h
      rcases h with rfl | hRest
      · exact hAll (n % 10) (Nat.mod_lt n (by decide))
      · exact ih hRest

theorem isDigit_of_mem_digits {c : Char} (h : c ∈ digits n) : c.isDigit := by
  rw [← low_length] at h
  exact isDigit_of_mem_low h

end Numeral
