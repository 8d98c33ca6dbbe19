import Mathlib.Data.List.Nodup
import Mathlib.Data.Nat.Find
import Mathlib.Data.Nat.ModEq
import Mathlib.Dynamics.PeriodicPts.Defs
import Mathlib.Tactic.Common

/-! The states that a function goes through from a start. The first state that
comes back gives the least period and the least number of states before it. -/
namespace Orbit

open Function

variable {α : Type*} {f : α → α} {x z : α} {j k m p q : ℕ}

/-- The states before `k` differ, and the state at `k` is that at `j`. -/
structure FirstReturn (f : α → α) (x : α) (j k : ℕ) : Prop where
  lt : j < k
  returns : f^[k] x = f^[j] x
  apart : ∀ a < k, ∀ b < k, f^[a] x = f^[b] x → a = b

/-- What comes back once comes back again and again. -/
theorem iterate_add_mul (h : f^[p + q] x = f^[p] x) (i : ℕ) : f^[p + q * i] x = f^[p] x := by
  have hPeriod : IsPeriodicPt f q (f^[p] x) := by
    rw [IsPeriodicPt, IsFixedPt, ← iterate_add_apply, Nat.add_comm, h]
  rw [Nat.add_comm, iterate_add_apply]
  exact hPeriod.mul_const i

/-- From `j` on only the position within the period matters. -/
theorem FirstReturn.iterate_mod (h : FirstReturn f x j k) (n : ℕ) :
    f^[j + n % (k - j)] x = f^[j + n] x := by
  have hPeriod : IsPeriodicPt f (k - j) (f^[j] x) := by
    rw [IsPeriodicPt, IsFixedPt, ← iterate_add_apply, Nat.sub_add_cancel h.lt.le, h.returns]
  rw [Nat.add_comm, iterate_add_apply, hPeriod.iterate_mod_apply, ← iterate_add_apply,
    Nat.add_comm]

theorem FirstReturn.mod_lt (h : FirstReturn f x j k) (n : ℕ) : j + n % (k - j) < k := by
  have hMod := Nat.mod_lt n (Nat.sub_pos_of_lt h.lt)
  omega

/-- Every other return starts later. -/
theorem FirstReturn.start_le (h : FirstReturn f x j k) (hq : 0 < q)
    (hReturn : f^[p + q] x = f^[p] x) : j ≤ p := by
  by_contra hBefore
  have hFar : j ≤ p + q * j := by
    have hLe : j ≤ q * j := Nat.le_mul_of_pos_left j hq
    omega
  have hSame : f^[j + (p + q * j - j) % (k - j)] x = f^[p] x := by
    rw [h.iterate_mod, Nat.add_sub_cancel' hFar, iterate_add_mul hReturn]
  have hLt := h.lt
  have hPosition := h.apart _ (h.mod_lt _) p (by omega) hSame
  omega

/-- The returns are those that start late enough and take a number of whole periods. -/
theorem FirstReturn.returns_iff (h : FirstReturn f x j k) (hq : 0 < q) :
    f^[p + q] x = f^[p] x ↔ j ≤ p ∧ k - j ∣ q := by
  constructor
  · intro hReturn
    have hStart := h.start_le hq hReturn
    refine ⟨hStart, ?_⟩
    obtain ⟨a, rfl⟩ := Nat.exists_eq_add_of_le hStart
    have hSame : f^[j + (a + q) % (k - j)] x = f^[j + a % (k - j)] x := by
      rw [h.iterate_mod, h.iterate_mod, ← Nat.add_assoc, hReturn]
    have hPosition := h.apart _ (h.mod_lt _) _ (h.mod_lt _) hSame
    have hMod : (a + q) % (k - j) = (a + 0) % (k - j) := by
      rw [Nat.add_zero]
      omega
    exact Nat.modEq_zero_iff_dvd.mp (Nat.ModEq.add_left_cancel' a hMod)
  · rintro ⟨hStart, r, rfl⟩
    obtain ⟨a, rfl⟩ := Nat.exists_eq_add_of_le hStart
    rw [Nat.add_assoc, ← h.iterate_mod, Nat.add_mul_mod_self_left, h.iterate_mod]

/-- Every other return starts later and takes at least as long. -/
theorem FirstReturn.minimal (h : FirstReturn f x j k) (hq : 0 < q)
    (hReturn : f^[p + q] x = f^[p] x) : j ≤ p ∧ k - j ≤ q := by
  obtain ⟨hStart, hDvd⟩ := (h.returns_iff hq).mp hReturn
  exact ⟨hStart, Nat.le_of_dvd hq hDvd⟩

/-- Some state comes back when there are fewer states than moments. -/
theorem exists_firstReturn {states : List α} (hStates : ∀ i ≤ states.length, f^[i] x ∈ states) :
    ∃ j k, FirstReturn f x j k ∧ k ≤ states.length := by
  classical
  have hBack : ∃ k, ∃ j < k, f^[k] x = f^[j] x ∧ k ≤ states.length := by
    by_contra hNone
    push Not at hNone
    have hNodup : ((List.range (states.length + 1)).map fun i => f^[i] x).Nodup := by
      rw [List.nodup_map_iff_inj_on List.nodup_range]
      intro a ha b hb hab
      rw [List.mem_range] at ha hb
      by_contra hNe
      rcases Nat.lt_or_gt_of_ne hNe with hLt | hLt
      · have := hNone b a hLt hab.symm
        omega
      · have := hNone a b hLt hab
        omega
    have hLe := (hNodup.subperm fun s hs => by
      obtain ⟨i, hi, rfl⟩ := List.mem_map.mp hs
      exact hStates i (by rw [List.mem_range] at hi; omega)).length_le
    rw [List.length_map, List.length_range] at hLe
    omega
  obtain ⟨j, hLt, hReturns, hLe⟩ := Nat.find_spec hBack
  refine ⟨j, Nat.find hBack, ⟨hLt, hReturns, ?_⟩, hLe⟩
  intro a ha b hb hab
  by_contra hNe
  rcases Nat.lt_or_gt_of_ne hNe with hBefore | hBefore
  · exact Nat.find_min hBack hb ⟨a, hBefore, hab.symm, by omega⟩
  · exact Nat.find_min hBack ha ⟨b, hBefore, hab, by omega⟩

/-- A fixed point that is not met before the first return is never met. -/
theorem FirstReturn.ne_of_ne (h : FirstReturn f x j k) (hBefore : ∀ i < k, f^[i] x ≠ z) (n : ℕ)
    (hn : j ≤ n) : f^[n] x ≠ z := by
  have hSame := h.iterate_mod (n - j)
  rw [Nat.add_sub_cancel' hn] at hSame
  rw [← hSame]
  exact hBefore _ (h.mod_lt _)

/-- No state comes back before the first fixed point. -/
theorem le_of_return (hFixed : f z = z) (hEnd : f^[m] x = z) (hBefore : ∀ i < m, f^[i] x ≠ z)
    (hq : 0 < q) (hReturn : f^[p + q] x = f^[p] x) : m ≤ p := by
  by_contra hLt
  have hFar : m ≤ p + q * m := by
    have hLe : m ≤ q * m := Nat.le_mul_of_pos_left m hq
    omega
  have hSame : f^[p + q * m] x = z := by
    rw [← Nat.sub_add_cancel hFar, iterate_add_apply, hEnd]
    exact iterate_fixed hFixed _
  rw [iterate_add_mul hReturn] at hSame
  exact hBefore p (by omega) hSame

end Orbit
