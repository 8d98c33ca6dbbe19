import Mathlib.Algebra.Order.Ring.Int
import Mathlib.Data.List.DropRight
import Mathlib.Data.List.Induction
import Mathlib.Tactic.Ring

/-! Little-endian numbers in any base, as lists of integers. -/
namespace Positional

def value (B : Int) : List Int → Int
  | [] => 0
  | d :: ds => d + B * value B ds

def Digits (B : Int) (ds : List Int) : Prop := ∀ d ∈ ds, 0 ≤ d ∧ d < B

/-- At least `n` digits, and no zero at the end of more of them. -/
def Trimmed (n : Nat) (ds : List Int) : Prop :=
  n ≤ ds.length ∧ (n < ds.length → ds.getLast? ≠ some 0)

variable {B d : Int} {ds front back : List Int}

@[simp] theorem value_nil : value B [] = 0 := rfl

@[simp] theorem value_cons : value B (d :: ds) = d + B * value B ds := rfl

theorem value_append :
    value B (front ++ back) = value B front + B ^ front.length * value B back := by
  induction front with
  | nil => simp
  | cons d front ih =>
      simp only [List.cons_append, value_cons, ih, List.length_cons, pow_succ]
      ring

@[simp] theorem value_replicate_zero (n : Nat) : value B (List.replicate n 0) = 0 := by
  induction n with
  | zero => rfl
  | succ n ih => rw [List.replicate_succ, value_cons, ih, Int.mul_zero, Int.zero_add]

theorem digits_nil : Digits B [] := fun _ h => absurd h List.not_mem_nil

theorem digits_cons : Digits B (d :: ds) ↔ (0 ≤ d ∧ d < B) ∧ Digits B ds :=
  List.forall_mem_cons

theorem digits_append : Digits B (front ++ back) ↔ Digits B front ∧ Digits B back :=
  List.forall_mem_append

theorem digits_replicate_zero (hB : 0 < B) (n : Nat) : Digits B (List.replicate n 0) := by
  intro d hd
  rw [List.eq_of_mem_replicate hd]
  exact ⟨Int.le_refl 0, hB⟩

namespace Digits

theorem value_nonneg (h : Digits B ds) : 0 ≤ value B ds := by
  induction ds with
  | nil => exact Int.le_refl 0
  | cons d ds ih =>
      obtain ⟨hd, hds⟩ := digits_cons.mp h
      have hRest := Int.mul_nonneg (show 0 ≤ B by omega) (ih hds)
      rw [value_cons]
      omega

theorem value_lt (h : Digits B ds) : value B ds < B ^ ds.length := by
  induction ds with
  | nil => simp
  | cons d ds ih =>
      obtain ⟨hd, hds⟩ := digits_cons.mp h
      have hRest : B * (value B ds + 1) ≤ B * B ^ ds.length :=
        Int.mul_le_mul_of_nonneg_left (ih hds) (by omega)
      rw [Int.mul_add] at hRest
      rw [value_cons, List.length_cons, pow_succ']
      omega

end Digits

theorem value_eq_zero_iff (h : Digits B ds) : value B ds = 0 ↔ ∀ d ∈ ds, d = 0 := by
  induction ds with
  | nil => simp
  | cons d ds ih =>
      obtain ⟨hd, hds⟩ := digits_cons.mp h
      have hRest := Int.mul_nonneg (show 0 ≤ B by omega) hds.value_nonneg
      rw [List.forall_mem_cons, ← ih hds, value_cons]
      constructor
      · intro hSum
        have hMul : B * value B ds = 0 := by omega
        exact ⟨by omega, (Int.mul_eq_zero.mp hMul).resolve_left (by omega)⟩
      · rintro ⟨rfl, hZero⟩
        rw [hZero, Int.mul_zero, Int.add_zero]

/-- Numbers of the same length are determined by their values. -/
theorem eq_of_value_eq {other : List Int} (h : Digits B ds) (hOther : Digits B other)
    (hLength : ds.length = other.length) (hValue : value B ds = value B other) : ds = other := by
  induction ds generalizing other with
  | nil => exact (List.length_eq_zero_iff.mp hLength.symm).symm
  | cons d ds ih =>
      cases other with
      | nil => cases hLength
      | cons e other =>
          obtain ⟨hd, hds⟩ := digits_cons.mp h
          obtain ⟨he, hother⟩ := digits_cons.mp hOther
          rw [value_cons, value_cons] at hValue
          have hMod := congrArg (· % B) hValue
          simp only [Int.add_mul_emod_self_left, Int.emod_eq_of_lt hd.1 hd.2,
            Int.emod_eq_of_lt he.1 he.2] at hMod
          subst e
          have hRest : value B ds = value B other :=
            Int.eq_of_mul_eq_mul_left (show B ≠ 0 by omega) (Int.add_left_cancel hValue)
          rw [ih hds hother (Nat.succ.inj hLength) hRest]

/-- The digits from the `k`th one on are dropped. -/
theorem value_cons_emod_pow (hd : 0 ≤ d ∧ d < B) (k : Nat) (v : Int) :
    (d + B * v) % B ^ (k + 1) = d + B * (v % B ^ k) := by
  have hPos : 0 < B := Int.lt_of_le_of_lt hd.1 hd.2
  have hPow : 0 < B ^ k := Int.pow_pos hPos
  have hLow := Int.emod_nonneg v (Int.ne_of_gt hPow)
  have hHigh : B * (v % B ^ k + 1) ≤ B * B ^ k :=
    Int.mul_le_mul_of_nonneg_left (Int.emod_lt_of_pos v hPow) (Int.le_of_lt hPos)
  have hRest := Int.mul_nonneg (Int.le_of_lt hPos) hLow
  have hSplit : d + B * v = d + B * (v % B ^ k) + B ^ (k + 1) * (v / B ^ k) := by
    conv_lhs => rw [← Int.emod_add_mul_ediv v (B ^ k)]
    ring
  rw [hSplit, Int.add_mul_emod_self_left, Int.emod_eq_of_lt (by omega)]
  rw [Int.mul_add] at hHigh
  rw [pow_succ']
  omega

theorem value_take (h : Digits B ds) (k : Nat) : value B (ds.take k) = value B ds % B ^ k := by
  induction ds generalizing k with
  | nil => simp
  | cons d ds ih =>
      obtain ⟨hd, hds⟩ := digits_cons.mp h
      cases k with
      | zero => rw [List.take_zero, value_nil, pow_zero, Int.emod_one]
      | succ k => rw [List.take_succ_cons, value_cons, ih hds, value_cons, value_cons_emod_pow hd]

theorem Digits.take (h : Digits B ds) (k : Nat) : Digits B (ds.take k) :=
  fun d hd => h d (List.mem_of_mem_take hd)

/-- The order of the lists, from the least significant digit on, is decided by the
lowest digit in which the numbers differ. -/
theorem lt_iff_emod_lt {other : List Int} (h : Digits B ds) (hOther : Digits B other)
    (hLength : ds.length = other.length) :
    ds < other ↔ ∃ k : Nat, value B ds % B ^ k = value B other % B ^ k ∧
      value B ds % B ^ (k + 1) < value B other % B ^ (k + 1) := by
  induction ds generalizing other with
  | nil =>
      obtain rfl := List.length_eq_zero_iff.mp hLength.symm
      simp
  | cons d ds ih =>
      cases other with
      | nil => cases hLength
      | cons e other =>
          obtain ⟨hd, hds⟩ := digits_cons.mp h
          obtain ⟨he, hother⟩ := digits_cons.mp hOther
          rw [List.cons_lt_cons_iff, ih hds hother (Nat.succ.inj hLength)]
          simp only [value_cons, value_cons_emod_pow hd, value_cons_emod_pow he]
          have hPos : 0 < B := Int.lt_of_le_of_lt hd.1 hd.2
          constructor
          · rintro (hLt | ⟨rfl, k, hEq, hLt⟩)
            · exact ⟨0, by simp only [pow_zero, Int.emod_one], by simpa using hLt⟩
            · refine ⟨k + 1, ?_, ?_⟩
              · rw [value_cons_emod_pow hd, value_cons_emod_pow hd, hEq]
              · exact Int.add_lt_add_left (Int.mul_lt_mul_of_pos_left hLt hPos) d
          · rintro ⟨k, hEq, hLt⟩
            cases k with
            | zero => exact Or.inl (by simpa using hLt)
            | succ k =>
                rw [value_cons_emod_pow hd, value_cons_emod_pow he] at hEq
                have hMod := congrArg (· % B) hEq
                simp only [Int.add_mul_emod_self_left, Int.emod_eq_of_lt hd.1 hd.2,
                  Int.emod_eq_of_lt he.1 he.2] at hMod
                subst e
                refine Or.inr ⟨rfl, k, ?_, ?_⟩
                · exact Int.eq_of_mul_eq_mul_left (Int.ne_of_gt hPos) (Int.add_left_cancel hEq)
                · exact Int.lt_of_mul_lt_mul_left (Int.lt_of_add_lt_add_left hLt)
                    (Int.le_of_lt hPos)

theorem pow_le_of_getLast (h : Digits B ds) (hSome : ds ≠ []) (hLast : ds.getLast? ≠ some 0) :
    B ^ (ds.length - 1) ≤ value B ds := by
  obtain ⟨front, last, hConcat⟩ := (List.eq_nil_or_concat ds).resolve_left hSome
  rw [List.concat_eq_append] at hConcat
  subst ds
  obtain ⟨hFront, hOne⟩ := digits_append.mp h
  obtain ⟨⟨hLow, hHigh⟩, _⟩ := digits_cons.mp hOne
  have hNonneg := hFront.value_nonneg
  have hPos : 1 ≤ last := by
    rw [List.getLast?_concat, Ne, Option.some.injEq] at hLast
    omega
  have hPow : 0 ≤ B ^ front.length := Int.pow_nonneg (by omega)
  have hMul := Int.mul_le_mul_of_nonneg_left hPos hPow
  rw [List.length_append, List.length_singleton, Nat.add_sub_cancel, value_append, value_cons,
    value_nil, Int.mul_zero, Int.add_zero]
  omega

/-- A number that is large enough for its digits does not end with a zero. -/
theorem getLast_ne_zero (h : Digits B ds) (hLow : B ^ (ds.length - 1) ≤ value B ds) :
    ds.getLast? ≠ some 0 := by
  intro hLast
  obtain ⟨front, rfl⟩ := List.getLast?_eq_some_iff.mp hLast
  have hFront := (digits_append.mp h).1.value_lt
  rw [value_append, value_cons, value_nil, Int.mul_zero, Int.add_zero, Int.mul_zero, Int.add_zero,
    List.length_append, List.length_singleton, Nat.add_sub_cancel] at hLow
  omega

section TrailingZeros

theorem exists_rdropWhile (ds : List Int) :
    ∃ k, ds = ds.rdropWhile (· = 0) ++ List.replicate k 0 := by
  induction ds using List.reverseRecOn with
  | nil => exact ⟨0, rfl⟩
  | append_singleton ds d ih =>
      by_cases hd : d = 0
      · obtain ⟨k, hk⟩ := ih
        refine ⟨k + 1, ?_⟩
        rw [List.rdropWhile_concat_pos _ _ _ (by simpa using hd), List.replicate_succ',
          ← List.append_assoc, ← hk, hd]
      · refine ⟨0, ?_⟩
        rw [List.rdropWhile_concat_neg _ _ _ (by simpa using hd), List.replicate_zero,
          List.append_nil]

theorem value_rdropWhile : value B (ds.rdropWhile (· = 0)) = value B ds := by
  obtain ⟨k, hk⟩ := exists_rdropWhile ds
  conv_rhs => rw [hk]
  rw [value_append, value_replicate_zero, Int.mul_zero, Int.add_zero]

theorem Digits.rdropWhile (h : Digits B ds) : Digits B (ds.rdropWhile (· = 0)) := by
  obtain ⟨k, hk⟩ := exists_rdropWhile ds
  rw [hk, digits_append] at h
  exact h.1

theorem getLast_rdropWhile (hSome : ds.rdropWhile (· = 0) ≠ []) :
    (ds.rdropWhile (· = 0)).getLast? ≠ some 0 := by
  have hNot := List.rdropWhile_last_not _ _ hSome
  rw [List.getLast?_eq_some_getLast hSome, Ne, Option.some.injEq]
  simpa using hNot

end TrailingZeros

namespace Trimmed

variable {n : Nat} {other : List Int}

/-- No more digits than a number of at least the same value. -/
theorem length_le (h : Trimmed n ds) (hDigits : Digits B ds) (hOther : Digits B other)
    (hLength : n ≤ other.length) (hLe : value B ds ≤ value B other) (hB : 0 < B) :
    ds.length ≤ other.length := by
  by_contra hLong
  have hSome : ds ≠ [] := List.length_pos_iff.mp (by omega)
  have hLow := pow_le_of_getLast hDigits hSome (h.2 (by omega))
  have hHigh := hOther.value_lt
  have hMono : B ^ other.length ≤ B ^ (ds.length - 1) :=
    pow_le_pow_right₀ (by omega) (by omega)
  omega

theorem eq_of_value_eq (h : Trimmed n ds) (hOther : Trimmed n other) (hDigits : Digits B ds)
    (hOtherDigits : Digits B other) (hB : 0 < B) (hValue : value B ds = value B other) :
    ds = other := by
  apply Positional.eq_of_value_eq hDigits hOtherDigits _ hValue
  have hLe := h.length_le hDigits hOtherDigits hOther.1 (Int.le_of_eq hValue) hB
  have hGe := hOther.length_le hOtherDigits hDigits h.1 (Int.le_of_eq hValue.symm) hB
  omega

/-- The digits of a positive number on top of `n` others. -/
theorem append (hLength : front.length = n) (h : Trimmed 1 back) (hDigits : Digits B back)
    (hPos : 0 < value B back) : Trimmed n (front ++ back) := by
  have hSome : back ≠ [] := List.length_pos_iff.mp h.1
  refine ⟨by rw [List.length_append]; omega, fun _ => ?_⟩
  rw [List.getLast?_append_of_ne_nil _ hSome]
  by_cases hOne : 1 < back.length
  · exact h.2 hOne
  · obtain ⟨d, rfl⟩ := List.length_eq_one_iff.mp (show back.length = 1 by have := h.1; omega)
    rw [value_cons, value_nil, Int.mul_zero, Int.add_zero] at hPos
    simp only [List.getLast?_singleton, Ne, Option.some.injEq]
    omega

end Trimmed
end Positional
