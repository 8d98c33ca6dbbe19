import CppPerf.Numbers.LargeInt
import Mathlib.Data.List.Lex
import Mathlib.Data.Nat.Log

/-! The class that keeps one decimal digit in each `char`, from the least
significant one on, and the order of its numbers. -/
namespace CppPerf.Numbers

open Positional

structure LargeIntBasic where
  li : List Int

namespace LargeIntBasic

/-- The loop of the constructor; `rounds` bounds its iterations. -/
def digitLoop : Nat → Int → List Int → Option (List Int)
  | 0, _, _ => none
  | rounds + 1, n, li =>
      if 0 < n then
        (fits 8 (n.tmod 10)).bind fun digit => digitLoop rounds (n.tdiv 10) (li ++ [digit])
      else some li

/-- No digit is written for a negative number. -/
def ofInt (n : Int) : Option LargeIntBasic :=
  if n = 0 then some ⟨[0]⟩ else (digitLoop 33 n []).map LargeIntBasic.mk

/-- `lhs + rhs`; the operands are copies. -/
def plus (lhs rhs : LargeIntBasic) : Option LargeIntBasic :=
  (sum .decimal lhs.li rhs.li).map fun (v1, _) => ⟨v1⟩

/-- `lhs < rhs`: vectors of the same size are compared from the front. -/
def less (lhs rhs : LargeIntBasic) : Prop :=
  lhs.li.length < rhs.li.length ∨ ¬rhs.li.length < lhs.li.length ∧ lhs.li < rhs.li

instance (lhs rhs : LargeIntBasic) : Decidable (lhs.less rhs) :=
  inferInstanceAs (Decidable (_ ∨ _ ∧ _))

/-- One digit at least, and no zero at the end of more of them. -/
structure Canonical (a : LargeIntBasic) : Prop where
  digits : Digits 10 a.li
  trimmed : Trimmed 1 a.li

def val (a : LargeIntBasic) : Nat := (value 10 a.li).toNat

variable {a b c : LargeIntBasic}

theorem Canonical.cast_val (h : a.Canonical) : (a.val : Int) = value 10 a.li :=
  Int.toNat_of_nonneg h.digits.value_nonneg

theorem digitLoop_spec {rounds : Nat} {n : Int} (hn : 0 ≤ n) (hBound : n < 2 ^ rounds)
    (li : List Int) :
    ∃ ds, digitLoop (rounds + 1) n li = some (li ++ ds) ∧ Digits 10 ds ∧ Trimmed 0 ds ∧
      value 10 ds = n := by
  induction rounds generalizing n li with
  | zero =>
      obtain rfl : n = 0 := by omega
      exact ⟨[], by simp [digitLoop], digits_nil, ⟨Nat.le_refl 0, fun h => absurd h (by decide)⟩,
        rfl⟩
  | succ rounds ih =>
      rw [digitLoop]
      split_ifs with hPos
      · have hLt : n / 10 < 2 ^ rounds := by
          rw [pow_succ] at hBound
          omega
        have hDigit : 0 ≤ n % 10 ∧ n % 10 < 10 := ⟨by omega, by omega⟩
        obtain ⟨ds, hRun, hDigits, hTrimmed, hValue⟩ :=
          ih (Int.ediv_nonneg hn (by decide)) hLt (li ++ [n % 10])
        have hValue' : value 10 (n % 10 :: ds) = n := by
          rw [value_cons, hValue]
          omega
        refine ⟨n % 10 :: ds, ?_, digits_cons.mpr ⟨hDigit, hDigits⟩, ?_, hValue'⟩
        · rw [Int.tmod_eq_emod_of_nonneg hn, fits_of_bounds (by omega) (by omega),
            Option.bind_some, Int.tdiv_eq_ediv_of_nonneg hn, hRun, List.append_assoc]
          rfl
        · refine ⟨Nat.zero_le _, fun _ => ?_⟩
          rcases ds with _ | ⟨d, ds⟩
          · rw [value_cons, value_nil] at hValue'
            rw [List.getLast?_singleton, Ne, Option.some.injEq]
            omega
          · rw [List.getLast?_cons_cons]
            exact hTrimmed.2 (Nat.succ_pos _)
      · obtain rfl : n = 0 := by omega
        exact ⟨[], by simp, digits_nil, ⟨Nat.le_refl 0, fun h => absurd h (by decide)⟩, rfl⟩

theorem ofInt_spec {n : Int} (hn : 0 ≤ n) (hBound : n < 2147483648) :
    ∃ r, ofInt n = some r ∧ r.Canonical ∧ (r.val : Int) = n := by
  rw [ofInt]
  split_ifs with hZero
  · subst hZero
    refine ⟨⟨[0]⟩, rfl, ⟨?_, Nat.le_refl 1, fun h => absurd h (by decide)⟩, rfl⟩
    exact digits_cons.mpr ⟨by decide, digits_nil⟩
  · have hBits : n < 2 ^ 32 := Int.lt_trans hBound (by norm_num)
    obtain ⟨ds, hRun, hDigits, hTrimmed, hValue⟩ := digitLoop_spec hn hBits []
    have hSome : ds ≠ [] := by
      rintro rfl
      exact hZero hValue.symm
    have hCanonical : Canonical ⟨ds⟩ := ⟨hDigits, List.length_pos_iff.mpr hSome,
      fun _ => hTrimmed.2 (List.length_pos_iff.mpr hSome)⟩
    exact ⟨⟨ds⟩, by rw [hRun]; rfl, hCanonical, hCanonical.cast_val.trans hValue⟩

namespace Canonical

/-- The number of digits. -/
theorem length_eq (h : a.Canonical) : a.li.length = Nat.log 10 a.val + 1 := by
  obtain ⟨n, hn⟩ : ∃ n, a.li.length = n + 1 := ⟨a.li.length - 1, by have := h.trimmed.1; omega⟩
  have hHigh := h.digits.value_lt
  rw [← h.cast_val, hn] at hHigh
  have hLow : n ≠ 0 → 10 ^ n ≤ a.val := by
    intro hMore
    have hLast := pow_le_of_getLast h.digits (List.length_pos_iff.mp (by omega))
      (h.trimmed.2 (by omega))
    rw [← h.cast_val, hn, Nat.add_sub_cancel] at hLast
    exact_mod_cast hLast
  rw [hn, Nat.add_right_cancel_iff]
  have hHigh : a.val < 10 ^ (n + 1) := by exact_mod_cast hHigh
  rcases Nat.eq_zero_or_pos n with rfl | hPos
  · exact (Nat.log_of_lt hHigh).symm
  · have hPow := hLow (Nat.ne_of_gt hPos)
    exact ((Nat.log_eq_iff (Or.inl (Nat.ne_of_gt hPos))).mpr ⟨hPow, hHigh⟩).symm

theorem li_eq (h : a.Canonical) (hb : b.Canonical) (hVal : a.val = b.val) : a = b := by
  have hValue : value 10 a.li = value 10 b.li := by
    rw [← h.cast_val, ← hb.cast_val, hVal]
  have hLi := h.trimmed.eq_of_value_eq hb.trimmed h.digits hb.digits (by decide) hValue
  exact congrArg LargeIntBasic.mk hLi

end Canonical
end LargeIntBasic

/-! Vectors of the same size are compared from the least significant digit on. The
order is a total one, but not the one of the numbers. -/

/-- The decimal digit `k` is the lowest one in which the numbers differ. -/
def DiffersFirst (m n k : Nat) : Prop :=
  m % 10 ^ k = n % 10 ^ k ∧ m % 10 ^ (k + 1) ≠ n % 10 ^ (k + 1)

/-- Of two numbers with as many digits, the smaller one has the smaller digit in
the lowest place in which they differ. -/
def LowestDecides (m n : Nat) : Prop :=
  Nat.log 10 m = Nat.log 10 n → ∀ k, DiffersFirst m n k →
    (m % 10 ^ (k + 1) < n % 10 ^ (k + 1) ↔ m < n)

section Digits

variable {m n k l : Nat}

theorem mod_of_le (hLe : k ≤ l) (h : m % 10 ^ l = n % 10 ^ l) : m % 10 ^ k = n % 10 ^ k := by
  have hDvd : 10 ^ k ∣ 10 ^ l := pow_dvd_pow 10 hLe
  rw [← Nat.mod_mod_of_dvd m hDvd, h, Nat.mod_mod_of_dvd n hDvd]

theorem DiffersFirst.unique (hk : DiffersFirst m n k) (hl : DiffersFirst m n l) : k = l := by
  rcases Nat.lt_trichotomy k l with hLt | hEq | hGt
  · exact absurd (mod_of_le hLt hl.1) hk.2
  · exact hEq
  · exact absurd (mod_of_le hGt hk.1) hl.2

/-- Different numbers differ in some digit. -/
theorem exists_differsFirst (hNe : m ≠ n) : ∃ k, DiffersFirst m n k := by
  have hSome : ∃ k, m % 10 ^ k ≠ n % 10 ^ k := by
    have hLarge := Nat.lt_pow_self (n := m + n) (a := 10) (by decide)
    refine ⟨m + n, ?_⟩
    rwa [Nat.mod_eq_of_lt (by omega), Nat.mod_eq_of_lt (by omega)]
  classical
  obtain ⟨k, hk⟩ : ∃ k, Nat.find hSome = k + 1 := by
    refine ⟨Nat.find hSome - 1, ?_⟩
    have hPos : Nat.find hSome ≠ 0 := by
      intro hZero
      have hDiffer := Nat.find_spec hSome
      rw [hZero, pow_zero, Nat.mod_one, Nat.mod_one] at hDiffer
      exact hDiffer rfl
    omega
  refine ⟨k, not_not.mp (Nat.find_min hSome (by omega)), ?_⟩
  rw [← hk]
  exact Nat.find_spec hSome

end Digits

namespace LargeIntBasic

variable {a b c : LargeIntBasic}

theorem less_iff (ha : a.Canonical) (hb : b.Canonical) :
    a.less b ↔ Nat.log 10 a.val < Nat.log 10 b.val ∨
      Nat.log 10 a.val = Nat.log 10 b.val ∧
        ∃ k, a.val % 10 ^ k = b.val % 10 ^ k ∧ a.val % 10 ^ (k + 1) < b.val % 10 ^ (k + 1) := by
  rw [less, ha.length_eq, hb.length_eq, Nat.add_lt_add_iff_right, Nat.add_lt_add_iff_right]
  refine or_congr_right' fun hNot => ?_
  rw [show (¬Nat.log 10 b.val < Nat.log 10 a.val) ↔ Nat.log 10 a.val = Nat.log 10 b.val by omega]
  refine and_congr_right fun hLog => ?_
  have hLength : a.li.length = b.li.length := by rw [ha.length_eq, hb.length_eq, hLog]
  rw [lt_iff_emod_lt ha.digits hb.digits hLength, ← ha.cast_val, ← hb.cast_val]
  norm_cast

/-- Two different numbers compare as they should exactly if the lowest digit
decides as it should. -/
theorem less_iff_of_ne (ha : a.Canonical) (hb : b.Canonical) (hNe : a.val ≠ b.val) :
    a.less b ↔ (a.val < b.val ↔ LowestDecides a.val b.val) := by
  rw [less_iff ha hb]
  by_cases hLog : Nat.log 10 a.val = Nat.log 10 b.val
  · obtain ⟨k, hFirst⟩ := exists_differsFirst hNe
    have hOnly : (∃ k, a.val % 10 ^ k = b.val % 10 ^ k ∧
        a.val % 10 ^ (k + 1) < b.val % 10 ^ (k + 1)) ↔
        a.val % 10 ^ (k + 1) < b.val % 10 ^ (k + 1) := by
      constructor
      · rintro ⟨l, hEq, hLt⟩
        obtain rfl := hFirst.unique ⟨hEq, Nat.ne_of_lt hLt⟩
        exact hLt
      · intro hLt
        exact ⟨k, hFirst.1, hLt⟩
    have hDecides : LowestDecides a.val b.val ↔
        (a.val % 10 ^ (k + 1) < b.val % 10 ^ (k + 1) ↔ a.val < b.val) := by
      constructor
      · intro h
        exact h hLog k hFirst
      · intro h _ l hl
        obtain rfl := hFirst.unique hl
        exact h
    rw [hOnly, hDecides, or_iff_right (by omega), and_iff_right hLog]
    tauto
  · have hDecides : LowestDecides a.val b.val := fun hEq => absurd hEq hLog
    rw [iff_true_right hDecides, or_iff_left fun h => hLog h.1]
    constructor
    · intro hLt
      by_contra hNot
      exact absurd (Nat.log_mono_right (b := 10) (Nat.not_lt.mp hNot)) (Nat.not_le.mpr hLt)
    · intro hLt
      have hMono := Nat.log_mono_right (b := 10) (Nat.le_of_lt hLt)
      omega

theorem not_less_self (a : LargeIntBasic) : ¬a.less a := by
  rintro (hLt | ⟨-, hLt⟩)
  · exact Nat.lt_irrefl _ hLt
  · exact List.lt_irrefl _ hLt

theorem less_trans (hab : a.less b) (hbc : b.less c) : a.less c := by
  unfold less at *
  rcases hab with hab | ⟨hab, hlt⟩
  · rcases hbc with hbc | ⟨hbc, -⟩
    · exact Or.inl (by omega)
    · exact Or.inl (by omega)
  · rcases hbc with hbc | ⟨hbc, hlt'⟩
    · exact Or.inl (by omega)
    · exact Or.inr ⟨by omega, List.lt_trans hlt hlt'⟩

theorem less_trichotomy (a b : LargeIntBasic) : a.less b ∨ a = b ∨ b.less a := by
  unfold less
  rcases Nat.lt_trichotomy a.li.length b.li.length with hLt | hEq | hGt
  · exact Or.inl (Or.inl hLt)
  · rcases lt_trichotomy a.li b.li with hLess | hSame | hGreater
    · exact Or.inl (Or.inr ⟨by omega, hLess⟩)
    · exact Or.inr (Or.inl (congrArg LargeIntBasic.mk hSame))
    · exact Or.inr (Or.inr (Or.inr ⟨by omega, hGreater⟩))
  · exact Or.inr (Or.inr (Or.inl hGt))

/-- A sum does not end with a zero that its operands did not have. -/
theorem plus_spec (ha : a.Canonical) (hb : b.Canonical) :
    ∃ r, a.plus b = some r ∧ r.Canonical ∧ r.val = a.val + b.val := by
  obtain ⟨v, hRun, hDigits, hTrimmed, hValue⟩ := sum_spec (s := .decimal) ha.digits hb.digits
  have haNonneg := ha.digits.value_nonneg
  have hbNonneg := hb.digits.value_nonneg
  have haLength := ha.trimmed.1
  have hLast : 1 < v.length → v.getLast? ≠ some 0 := by
    intro hMore
    by_cases hLonger : max a.li.length b.li.length < v.length
    · exact hTrimmed.2 hLonger
    · have hLength : v.length = max a.li.length b.li.length := by
        have := hTrimmed.1
        omega
      apply getLast_ne_zero hDigits
      rw [hValue, hLength]
      rcases Nat.le_total a.li.length b.li.length with hLe | hGe
      · rw [Nat.max_eq_right hLe] at hLength ⊢
        have hPow := pow_le_of_getLast hb.digits (List.length_pos_iff.mp (by omega))
          (hb.trimmed.2 (by omega))
        exact Int.le_trans hPow (by simpa [Scale.decimal] using haNonneg)
      · rw [Nat.max_eq_left hGe] at hLength ⊢
        have hPow := pow_le_of_getLast ha.digits (List.length_pos_iff.mp (by omega))
          (ha.trimmed.2 (by omega))
        exact Int.le_trans hPow (by simpa [Scale.decimal] using hbNonneg)
  have hSome : 1 ≤ v.length :=
    Nat.le_trans (Nat.le_trans haLength (Nat.le_max_left _ _)) hTrimmed.1
  have hCanonical : Canonical ⟨v⟩ := ⟨hDigits, hSome, hLast⟩
  refine ⟨⟨v⟩, by rw [plus, hRun]; rfl, hCanonical, ?_⟩
  have hCast := hCanonical.cast_val
  have hSum : value 10 v = value 10 a.li + value 10 b.li := hValue
  rw [hSum, ← ha.cast_val, ← hb.cast_val] at hCast
  exact_mod_cast hCast

/-- The comparison is the one of the numbers exactly if the lowest digit decides.
It is a total order in any case, which an addition keeps exactly if the lowest
digit decides alike before and after. -/
theorem less_numeric_iff (a b c : LargeIntBasic) (ha : a.Canonical) (hb : b.Canonical)
    (hc : c.Canonical) :
    ((a.less b ↔ a.val < b.val) ↔ LowestDecides a.val b.val) ∧
    (¬a.less a ∧ (a.less b → b.less c → a.less c) ∧ (a.less b ∨ a = b ∨ b.less a)) ∧
    ∃ ac bc, a.plus c = some ac ∧ b.plus c = some bc ∧
      (a.less b → (ac.less bc ↔
        (LowestDecides a.val b.val ↔ LowestDecides (a.val + c.val) (b.val + c.val)))) := by
  refine ⟨?_, ⟨not_less_self a, less_trans, less_trichotomy a b⟩, ?_⟩
  · by_cases hEq : a.val = b.val
    · obtain rfl := ha.li_eq hb hEq
      have hDecides : LowestDecides a.val a.val := fun _ k hFirst => absurd rfl hFirst.2
      exact iff_of_true (iff_of_false (not_less_self a) (Nat.lt_irrefl _)) hDecides
    · have hIff := less_iff_of_ne ha hb hEq
      by_cases hLt : a.val < b.val
      · rw [hIff, iff_true_right hLt, iff_true_left hLt]
      · rw [hIff, iff_false_right hLt, iff_false_left hLt, not_not]
  · obtain ⟨ac, hac, hacCanonical, hacVal⟩ := plus_spec ha hc
    obtain ⟨bc, hbc, hbcCanonical, hbcVal⟩ := plus_spec hb hc
    refine ⟨ac, bc, hac, hbc, fun hLess => ?_⟩
    have hNe : a.val ≠ b.val := by
      intro hEq
      obtain rfl := ha.li_eq hb hEq
      exact not_less_self a hLess
    have hOld := (less_iff_of_ne ha hb hNe).mp hLess
    rw [less_iff_of_ne hacCanonical hbcCanonical (by omega), hacVal, hbcVal,
      Nat.add_lt_add_iff_right, hOld]

/-- 21 is before 12, and 29 is not before 20. -/
theorem less_twenty_one :
    less ⟨[1, 2]⟩ ⟨[2, 1]⟩ ∧ ¬val ⟨[1, 2]⟩ < val ⟨[2, 1]⟩ ∧
      plus ⟨[1, 2]⟩ ⟨[8]⟩ = some ⟨[9, 2]⟩ ∧ plus ⟨[2, 1]⟩ ⟨[8]⟩ = some ⟨[0, 2]⟩ ∧
      ¬less ⟨[9, 2]⟩ ⟨[0, 2]⟩ :=
  ⟨by decide, by decide, rfl, rfl, by decide⟩

/-- 12 and 34, to which 8 is added. -/
theorem less_numeric_twelve :
    ((less ⟨[2, 1]⟩ ⟨[4, 3]⟩ ↔ val ⟨[2, 1]⟩ < val ⟨[4, 3]⟩) ↔
      LowestDecides (val ⟨[2, 1]⟩) (val ⟨[4, 3]⟩)) ∧ less ⟨[2, 1]⟩ ⟨[4, 3]⟩ := by
  have hTwelve : Canonical ⟨[2, 1]⟩ :=
    ⟨digits_cons.mpr ⟨by decide, digits_cons.mpr ⟨by decide, digits_nil⟩⟩, by decide, by decide⟩
  have hThirtyFour : Canonical ⟨[4, 3]⟩ :=
    ⟨digits_cons.mpr ⟨by decide, digits_cons.mpr ⟨by decide, digits_nil⟩⟩, by decide, by decide⟩
  have hEight : Canonical ⟨[8]⟩ := ⟨digits_cons.mpr ⟨by decide, digits_nil⟩, by decide, by decide⟩
  exact ⟨(less_numeric_iff _ _ _ hTwelve hThirtyFour hEight).1, by decide⟩

end LargeIntBasic
end CppPerf.Numbers
