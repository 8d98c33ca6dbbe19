import Mathlib.Algebra.Order.Ring.Int
import Mathlib.Tactic.Ring

/-! Numbers with some digits after the point, truncated toward zero to fewer of them.
An integer `a` with `n` digits stands for `a * B ^ -n`. -/
namespace Truncation

variable {B : Int}

/-- The mantissa that is left of `a` with `n` digits if `d` digits are kept. -/
def truncate (B a : Int) (n d : Nat) : Int := (a * B ^ d).tdiv (B ^ n)

/-- Two mantissas with `n` and `d` digits stand for the same number. -/
def Same (B a : Int) (n : Nat) (m : Int) (d : Nat) : Prop := m * B ^ n = a * B ^ d

instance (B a : Int) (n : Nat) (m : Int) (d : Nat) : Decidable (Same B a n m d) :=
  inferInstanceAs (Decidable (_ = _))

theorem tdiv_tdiv (a : Int) {b : Int} (c : Int) (hb : 0 ≤ b) :
    (a.tdiv b).tdiv c = a.tdiv (b * c) := by
  have hNonneg (a : Int) (ha : 0 ≤ a) : (a.tdiv b).tdiv c = a.tdiv (b * c) := by
    rw [Int.tdiv_eq_ediv_of_nonneg ha, Int.tdiv_eq_ediv_of_nonneg (Int.ediv_nonneg ha hb),
      Int.tdiv_eq_ediv_of_nonneg ha, Int.ediv_ediv_of_nonneg hb]
  rcases Int.le_total 0 a with ha | ha
  · exact hNonneg a ha
  · have hNeg := hNonneg (-a) (by omega)
    rw [Int.neg_tdiv, Int.neg_tdiv, Int.neg_tdiv] at hNeg
    omega

section Digits

variable (hB : 0 < B)

include hB

/-- Keeping `d` digits drops the others. -/
theorem truncate_add (a : Int) (d k : Nat) : truncate B a (d + k) d = a.tdiv (B ^ k) := by
  rw [truncate, Int.mul_comm, pow_add, Int.mul_tdiv_mul_of_pos _ _ (Int.pow_pos hB)]

/-- Nothing is lost if the digits that are dropped are zero. -/
theorem same_tdiv_iff (a : Int) (d k : Nat) :
    Same B a (d + k) (a.tdiv (B ^ k)) d ↔ B ^ k ∣ a := by
  have hPow : B ^ d ≠ 0 := Int.ne_of_gt (Int.pow_pos hB)
  rw [Same, pow_add, Int.mul_comm (B ^ d), ← Int.mul_assoc, Int.mul_eq_mul_right_iff hPow]
  exact ⟨fun h => ⟨_, h.symm.trans (Int.mul_comm _ _)⟩, Int.tdiv_mul_cancel⟩

/-- One more digit that is dropped is zero if the last one that is kept is. -/
theorem pow_succ_dvd_iff (a : Int) (k : Nat) :
    B ^ (k + 1) ∣ a ↔ B ^ k ∣ a ∧ B ∣ a.tdiv (B ^ k) := by
  have hPow : B ^ k ≠ 0 := Int.ne_of_gt (Int.pow_pos hB)
  constructor
  · rintro ⟨c, rfl⟩
    rw [pow_succ, Int.mul_assoc, Int.mul_tdiv_cancel_left _ hPow]
    exact ⟨Int.dvd_mul_right _ _, Int.dvd_mul_right _ _⟩
  · rintro ⟨⟨q, rfl⟩, hDigit⟩
    rw [Int.mul_tdiv_cancel_left _ hPow] at hDigit
    rw [pow_succ]
    exact Int.mul_dvd_mul_left _ hDigit

/-- Zeros that are dropped later change nothing. -/
theorem pow_add_dvd_iff (a : Int) {k c : Nat} (h : B ^ c ∣ a.tdiv (B ^ k)) :
    B ^ (k + c) ∣ a ↔ B ^ k ∣ a := by
  refine ⟨Dvd.dvd.trans (pow_dvd_pow B (Nat.le_add_right k c)), ?_⟩
  rintro ⟨q, rfl⟩
  rw [Int.mul_tdiv_cancel_left _ (Int.ne_of_gt (Int.pow_pos hB))] at h
  rw [pow_add]
  exact Int.mul_dvd_mul_left _ h

/-- If fewer digits are enough, the last ones are zero. -/
theorem Same.dvd {a m : Int} {n d j : Nat} (h : Same B a n m d) (hn : d + j ≤ n) : B ^ j ∣ a := by
  obtain ⟨c, rfl⟩ := Nat.exists_eq_add_of_le hn
  have hPow : B ^ d ≠ 0 := Int.ne_of_gt (Int.pow_pos hB)
  rw [Same, pow_add, pow_add] at h
  refine ⟨m * B ^ c, (Int.eq_of_mul_eq_mul_right hPow ?_).symm⟩
  rw [← h]
  ring

/-- The mantissa with the fewest digits is the smallest. -/
theorem Same.eq_mul {q m : Int} {n d z : Nat} (h : Same B (q * B ^ z) n m d) (hn : n ≤ z + d) :
    m = q * B ^ (z + d - n) := by
  obtain ⟨c, hc⟩ := Nat.exists_eq_add_of_le hn
  have hPow : B ^ n ≠ 0 := Int.ne_of_gt (Int.pow_pos hB)
  rw [Same, Int.mul_assoc, ← pow_add, hc, pow_add] at h
  rw [hc, Nat.add_sub_cancel_left]
  refine Int.eq_of_mul_eq_mul_right hPow ?_
  rw [h]
  ring

end Digits
end Truncation
