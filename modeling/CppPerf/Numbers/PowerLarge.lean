import CppPerf.Numbers.LargeInt
import Mathlib.Data.Nat.Log

/-! Powers of which only the last decimal digits are kept. What an operation on
`long long` gives is a parameter: the result modulo 2^64, or nothing where it does
not fit. -/
namespace CppPerf.Numbers

/-- The `long long` that is congruent modulo 2^64. -/
def wrap (x : Int) : Int := x.bmod (2 ^ 64)

/-- Wherever a product or a sum goes on, it is the exact one. -/
def checked (x : Int) : Option Int := fits 64 x

def wrapping (x : Int) : Option Int := some (wrap x)

namespace Power_Large

variable (ll : Int → Option Int)

/-- The loop of `large_int_multiply` from a carry on. -/
def multiplyLoop (factor : Int) : Int → List Int → Option (List Int × Int)
  | carry, [] => some ([], carry)
  | carry, x :: first1 =>
      (ll (x * factor)).bind fun product =>
      (ll (carry + product)).bind fun carry =>
      (fits 8 (carry.tmod 10)).bind fun digit =>
      (multiplyLoop factor (carry.tdiv 10) first1).map fun (dest, carry) => (digit :: dest, carry)

def large_int_multiply (product : List Int) (factor : Int) : Option (List Int) :=
  (multiplyLoop ll factor 0 product).bind fun (product, carry) =>
    if 0 < carry then large_int_fill .decimal 64 product carry else some product

/-- The number that the digits stand for, computed from the back. -/
def large_int_get (large_int : List Int) : Int :=
  large_int.foldr (fun c t => wrap (wrap (t * 10) + c)) 0

/-- A product of which the last digits are kept. -/
def multiplyKeep (digits : Nat) (large_int : List Int) (factor : Int) : Option (List Int) :=
  (large_int_multiply ll large_int factor).map fun large_int =>
    if digits < large_int.length then large_int.take digits else large_int

/-- The squarings; `rounds` bounds their number. The factors for the bits of the
exponent are put off. -/
def squareLoop (digits : Nat) : (rounds : Nat) → (large_int : List Int) → (base : Int) →
    (power : Nat) → (bases : List Int) → Option (List Int × List Int)
  | 0, _, _, _, _ => none
  | rounds + 1, large_int, base, power, bases =>
      if 1 < power then
        let bases := if 0 < power % 2 then bases ++ [base] else bases
        (multiplyKeep ll digits large_int base).bind fun large_int =>
          squareLoop digits rounds large_int (large_int_get large_int) (power / 2) bases
      else some (large_int, bases)

def productLoop (digits : Nat) : List Int → List Int → Option (List Int)
  | large_int, [] => some large_int
  | large_int, b :: bases =>
      (multiplyKeep ll digits large_int b).bind fun large_int => productLoop digits large_int bases

/-- The power, and the number of digits. -/
def compute_2 (base : Int) (power digits : Nat) : Option (Int × Nat) :=
  (large_int_fill .decimal 64 [] base).bind fun large_int =>
    (squareLoop ll digits power large_int base power []).bind fun (large_int, bases) =>
      (productLoop ll digits large_int bases).map fun large_int =>
        (large_int_get large_int, large_int.length)

def compute (base : Int) (power digits : Nat) : Option Int :=
  (compute_2 ll base power digits).map Prod.fst

end Power_Large
end CppPerf.Numbers

/-! The power is exact exactly if no digit times a factor, with the carry, exceeds a
`long long`. -/
namespace CppPerf.Numbers.Power_Large

open Positional

/-- What is computed at each of the digits of `X` when it is multiplied with `f`
is below 2^63. -/
def MulFits (digits X f : Nat) : Prop := ∀ i < digits, X % 10 ^ (i + 1) * f / 10 ^ i < 2 ^ 63

instance (digits X f : Nat) : Decidable (MulFits digits X f) :=
  inferInstanceAs (Decidable (∀ i < digits, X % 10 ^ (i + 1) * f / 10 ^ i < 2 ^ 63))

section Multiplication

variable {v dest : List Int} {f c x carry : Int}

theorem checked_of_le (hLow : 0 ≤ x) (hHigh : x < 9223372036854775808) : checked x = some x :=
  fits_64 (by omega) hHigh

theorem checked_of_ge (h : 9223372036854775808 ≤ x) : checked x = none :=
  if_neg fun hFits => by
    have hHigh := hFits.2
    norm_num at hHigh
    omega

/-- One digit. -/
theorem multiplyLoop_cons (hx : 0 ≤ x) (hf : 0 ≤ f) (hc : 0 ≤ c) (v : List Int) :
    multiplyLoop checked f c (x :: v) =
      if c + x * f < 9223372036854775808 then
        (multiplyLoop checked f ((c + x * f) / 10) v).map
          fun (dest, carry) => ((c + x * f) % 10 :: dest, carry)
      else none := by
  have hProduct : 0 ≤ x * f := Int.mul_nonneg hx hf
  rw [multiplyLoop]
  split_ifs with hFits
  · have hSum : 0 ≤ c + x * f := by omega
    rw [checked_of_le hProduct (by omega), Option.bind_some, checked_of_le hSum hFits,
      Option.bind_some, Int.tmod_eq_emod_of_nonneg hSum, Int.tdiv_eq_ediv_of_nonneg hSum,
      fits_of_bounds (by omega) (by omega), Option.bind_some]
  · by_cases hLarge : x * f < 9223372036854775808
    · rw [checked_of_le hProduct hLarge, Option.bind_some, checked_of_ge (by omega)]
      rfl
    · rw [checked_of_ge (by omega)]
      rfl

/-- The sum at a digit, of which the carry is the part from the digits below. -/
theorem sum_at_succ (c x f w : Int) (i : Nat) :
    (c + (x + 10 * w) * f) / 10 ^ (i + 1) = ((c + x * f) / 10 + w * f) / 10 ^ i := by
  have hSplit : c + (x + 10 * w) * f = c + x * f + 10 * (w * f) := by ring
  rw [hSplit, pow_succ', ← Int.ediv_ediv_of_nonneg (by decide),
    Int.add_mul_ediv_left _ _ (by decide)]

theorem multiplyLoop_isSome (h : Digits 10 v) (hf : 0 ≤ f) (hc : 0 ≤ c) :
    (multiplyLoop checked f c v).isSome ↔
      ∀ i < v.length, (c + value 10 (v.take (i + 1)) * f) / 10 ^ i < 9223372036854775808 := by
  induction v generalizing c with
  | nil => exact iff_of_true rfl fun i hi => absurd hi (Nat.not_lt_zero i)
  | cons x v ih =>
      obtain ⟨hx, hv⟩ := digits_cons.mp h
      have hProduct : 0 ≤ x * f := Int.mul_nonneg hx.1 hf
      have hNext : 0 ≤ (c + x * f) / 10 := Int.ediv_nonneg (by omega) (by decide)
      rw [multiplyLoop_cons hx.1 hf hc, List.length_cons, Nat.forall_lt_succ_left]
      simp only [List.take_succ_cons, value_cons, sum_at_succ]
      rw [← ih hv hNext, List.take_zero, value_nil, Int.mul_zero, Int.add_zero, pow_zero,
        Int.ediv_one]
      split_ifs with hFits
      · rw [Option.isSome_map, and_iff_right hFits]
      · exact iff_of_false (by decide) fun hAll => hFits hAll.1

/-- No digit is lost. -/
theorem multiplyLoop_value (h : Digits 10 v) (hf : 0 ≤ f) (hc : 0 ≤ c)
    (hBound : c < 9223372036854775808) (hRun : multiplyLoop checked f c v = some (dest, carry)) :
    Digits 10 dest ∧ (0 ≤ carry ∧ carry < 9223372036854775808) ∧
      value 10 dest + 10 ^ dest.length * carry = c + value 10 v * f := by
  induction v generalizing c dest carry with
  | nil =>
      obtain ⟨rfl, rfl⟩ := Prod.mk.inj (Option.some.inj hRun)
      exact ⟨digits_nil, ⟨hc, hBound⟩, by simp⟩
  | cons x v ih =>
      obtain ⟨hx, hv⟩ := digits_cons.mp h
      have hProduct : 0 ≤ x * f := Int.mul_nonneg hx.1 hf
      have hNext : 0 ≤ (c + x * f) / 10 := Int.ediv_nonneg (by omega) (by decide)
      rw [multiplyLoop_cons hx.1 hf hc] at hRun
      split_ifs at hRun with hFits
      obtain ⟨⟨dest', carry'⟩, hRest, hEq⟩ := Option.map_eq_some_iff.mp hRun
      obtain ⟨rfl, rfl⟩ := Prod.mk.inj hEq
      obtain ⟨hDest, hCarry, hValue⟩ := ih hv hNext (by omega) hRest
      refine ⟨digits_cons.mpr ⟨by omega, hDest⟩, hCarry, ?_⟩
      have hDigit := Int.emod_add_mul_ediv (c + x * f) 10
      rw [value_cons, value_cons, List.length_cons, pow_succ]
      linear_combination hDigit + 10 * hValue

end Multiplication

/-- At most `digits` digits, and the number that they stand for. -/
structure Holds (digits : Nat) (v : List Int) (X : Nat) : Prop where
  digits_li : Digits 10 v
  length_le : v.length ≤ digits
  value_eq : value 10 v = X

section Keep

variable {digits X f : Nat} {v : List Int}

theorem Holds.lt (h : Holds digits v X) : X < 10 ^ digits := by
  have hLt := h.digits_li.value_lt
  rw [h.value_eq] at hLt
  have hPow : (10 : Int) ^ v.length ≤ 10 ^ digits := pow_le_pow_right₀ (by decide) h.length_le
  exact_mod_cast Int.lt_of_lt_of_le hLt hPow

/-- The sums at the digits that a vector does not have are not larger. -/
theorem Holds.mulFits_iff (h : Holds digits v X) (f : Nat) :
    MulFits digits X f ↔ ∀ i < v.length, X % 10 ^ (i + 1) * f / 10 ^ i < 2 ^ 63 := by
  constructor
  · intro hFits i hi
    exact hFits i (Nat.lt_of_lt_of_le hi h.length_le)
  · intro hFits i hi
    by_cases hShort : i < v.length
    · exact hFits i hShort
    · have hX : X < 10 ^ v.length := Holds.lt ⟨h.digits_li, Nat.le_refl _, h.value_eq⟩
      rcases Nat.eq_zero_or_pos v.length with hNone | hSome
      · rw [hNone, pow_zero, Nat.lt_one_iff] at hX
        rw [hX, Nat.zero_mod, Nat.zero_mul, Nat.zero_div]
        decide
      · have hTop := hFits (v.length - 1) (by omega)
        rw [Nat.sub_add_cancel hSome, Nat.mod_eq_of_lt hX] at hTop
        refine Nat.lt_of_le_of_lt (Nat.div_le_div (Nat.mul_le_mul_right f (Nat.mod_le _ _)) ?_ ?_)
          hTop
        · exact Nat.pow_le_pow_right (by decide) (by omega)
        · exact Nat.ne_of_gt (Nat.pow_pos (by decide))

theorem Holds.multiply_isSome (h : Holds digits v X) (f : Nat) :
    (multiplyLoop checked f 0 v).isSome ↔ MulFits digits X f := by
  rw [multiplyLoop_isSome h.digits_li (Int.natCast_nonneg f) (Int.le_refl 0), h.mulFits_iff]
  refine forall_congr' fun i => imp_congr_right fun hi => ?_
  rw [value_take h.digits_li, h.value_eq, Int.zero_add]
  norm_cast

theorem holds_keep {product : List Int} (h : Digits 10 product) (hValue : value 10 product = X) :
    Holds digits (if digits < product.length then product.take digits else product)
      (X % 10 ^ digits) := by
  split_ifs with hLong
  · refine ⟨h.take digits, List.length_take_le _ _, ?_⟩
    rw [value_take h, hValue]
    norm_cast
  · refine ⟨h, Nat.not_lt.mp hLong, ?_⟩
    have hX : X < 10 ^ digits := Holds.lt ⟨h, Nat.not_lt.mp hLong, hValue⟩
    rw [hValue, Nat.mod_eq_of_lt hX]

/-- A product that fits keeps its last digits, and one that does not is undefined. -/
theorem Holds.multiplyKeep (h : Holds digits v X) (f : Nat) :
    (MulFits digits X f → ∃ v', multiplyKeep checked digits v f = some v' ∧
      Holds digits v' (X * f % 10 ^ digits)) ∧
    (¬MulFits digits X f → multiplyKeep checked digits v f = none) := by
  rw [← h.multiply_isSome f]
  constructor
  · intro hSome
    obtain ⟨⟨low, carry⟩, hRun⟩ := Option.isSome_iff_exists.mp hSome
    obtain ⟨hLow, hCarry, hValue⟩ := multiplyLoop_value h.digits_li (Int.natCast_nonneg f)
      (Int.le_refl 0) (by decide) hRun
    rw [h.value_eq, Int.zero_add] at hValue
    obtain ⟨product, hFill, hDigits, hProduct⟩ : ∃ product,
        (if 0 < carry then large_int_fill .decimal 64 low carry else some low) = some product ∧
          Digits 10 product ∧ value 10 product = X * f := by
      split_ifs with hPos
      · obtain ⟨top, hFill, hTop, -, hTopValue⟩ := large_int_fill_spec (s := .decimal) hCarry.1
          (by decide : 0 < 64) (Int.lt_trans hCarry.2 (by norm_num)) low
        refine ⟨low ++ top, hFill, digits_append.mpr ⟨hLow, hTop⟩, ?_⟩
        have hTopValue : value 10 top = carry := hTopValue
        rw [value_append, hTopValue, hValue]
      · obtain rfl : carry = 0 := by omega
        exact ⟨low, rfl, hLow, by simpa using hValue⟩
    refine ⟨_, ?_, holds_keep (X := X * f) hDigits (by rw [hProduct]; norm_cast)⟩
    rw [Power_Large.multiplyKeep, large_int_multiply, hRun, Option.bind_some]
    dsimp only
    rw [hFill]
    rfl
  · intro hNone
    rw [Option.not_isSome_iff_eq_none] at hNone
    rw [Power_Large.multiplyKeep, large_int_multiply, hNone]
    rfl

/-- Without a 9 a number of at most 19 digits is below 2^63. -/
theorem value_of_small_digits (h : Digits 9 v) : 9 * value 10 v ≤ 8 * (10 ^ v.length - 1) := by
  induction v with
  | nil => simp
  | cons d v ih =>
      obtain ⟨hd, hv⟩ := digits_cons.mp h
      have hRest := ih hv
      rw [value_cons, List.length_cons, pow_succ]
      omega

theorem multiplyLoop_eq_none {f d : Int} (hd : d ∈ v) (hNone : checked (d * f) = none) (c : Int) :
    multiplyLoop checked f c v = none := by
  induction v generalizing c with
  | nil => exact absurd hd List.not_mem_nil
  | cons x v ih =>
      rw [multiplyLoop]
      rcases List.mem_cons.mp hd with rfl | hRest
      · rw [hNone]
        rfl
      · simp only [ih hRest, Option.map_none, Option.bind_fun_none]

theorem wrap_of_lt {X : Nat} (h : X < 2 ^ 63) : wrap X = X := by
  rw [wrap, Int.bmod_eq_of_le (by omega) (by omega)]

theorem wrap_of_ge {X : Nat} (hLow : 2 ^ 63 ≤ X) (hHigh : X < 10 ^ 19) :
    wrap X = X - 18446744073709551616 := by
  rw [wrap, Int.bmod_def, Int.emod_eq_of_lt (Int.natCast_nonneg X) (by omega), if_neg]
  · rfl
  · norm_num
    omega

theorem large_int_get_eq (v : List Int) : large_int_get v = wrap (value 10 v) := by
  induction v with
  | nil => rfl
  | cons d v ih =>
      change wrap (wrap (large_int_get v * 10) + d) = _
      rw [ih, wrap, wrap, wrap, wrap, Int.bmod_mul_bmod, Int.bmod_add_bmod, value_cons]
      congr 1
      ring

/-- The square of a number from 2^63 on does not fit at its top digit. -/
theorem lt_of_mulFits (hX : X < 10 ^ digits) (hDigits : digits ≤ 19) (hFits : MulFits digits X X) :
    X < 2 ^ 63 := by
  by_contra hLarge
  have hMax : digits = 19 := by
    by_contra hLess
    have hPow : 10 ^ digits ≤ 10 ^ 18 := Nat.pow_le_pow_right (by decide) (by omega)
    omega
  subst hMax
  have hTop := hFits 18 (by omega)
  rw [Nat.mod_eq_of_lt hX] at hTop
  have hMul : X * 10 ^ 18 ≤ X * X := Nat.mul_le_mul_left X (by omega)
  have hDiv := Nat.div_le_div_right (c := 10 ^ 18) hMul
  rw [Nat.mul_div_cancel X (by decide)] at hDiv
  omega

/-- A number with itself as the factor, as `long long`: from 2^63 on neither the
exact product fits nor the wrapped one. -/
theorem Holds.square (h : Holds digits v X) (hDigits : digits ≤ 19) :
    (MulFits digits X X → X < 2 ^ 63 ∧ ∃ v', Power_Large.multiplyKeep checked digits v (wrap X) =
      some v' ∧ Holds digits v' (X * X % 10 ^ digits)) ∧
    (¬MulFits digits X X → Power_Large.multiplyKeep checked digits v (wrap X) = none) := by
  by_cases hSmall : X < 2 ^ 63
  · rw [wrap_of_lt hSmall]
    exact ⟨fun hFits => ⟨hSmall, (h.multiplyKeep X).1 hFits⟩, (h.multiplyKeep X).2⟩
  · have hX : X < 10 ^ 19 := Nat.lt_of_lt_of_le h.lt (Nat.pow_le_pow_right (by decide) hDigits)
    have hNine : (9 : Int) ∈ v := by
      by_contra hNone
      have hSmaller : Digits 9 v := by
        intro d hd
        have hRange := h.digits_li d hd
        have hNe : d ≠ 9 := fun hEq => hNone (hEq ▸ hd)
        omega
      have hBound := value_of_small_digits hSmaller
      have hPow : (10 : Int) ^ v.length ≤ 10 ^ 19 :=
        pow_le_pow_right₀ (by decide) (Nat.le_trans h.length_le hDigits)
      rw [h.value_eq] at hBound
      norm_num at hPow
      omega
    have hNotFits : ¬MulFits digits X X := fun hFits => hSmall (lt_of_mulFits h.lt hDigits hFits)
    refine ⟨fun hFits => absurd hFits hNotFits, fun _ => ?_⟩
    have hOverflow : checked (9 * wrap X) = none := by
      rw [wrap_of_ge (Nat.not_lt.mp hSmall) hX]
      refine if_neg fun hFits => ?_
      have hLow := hFits.1
      norm_num at hLow
      omega
    rw [Power_Large.multiplyKeep, large_int_multiply, multiplyLoop_eq_none hNine hOverflow]
    rfl

end Keep

/-- Defined exactly if `ok` holds, with a result that has the property. -/
def Yields {α : Type*} (r : Option α) (ok : Prop) (P : α → Prop) : Prop :=
  (ok → ∃ a, r = some a ∧ P a) ∧ (¬ok → r = none)

namespace Yields

variable {α β : Type*} {r : Option α} {ok ok' : Prop} {P : α → Prop} {Q : β → Prop}

theorem pure {a : α} (h : P a) : Yields (some a) True P :=
  ⟨fun _ => ⟨a, rfl, h⟩, fun hNot => absurd trivial hNot⟩

theorem congr (h : Yields r ok P) (hIff : ok ↔ ok') : Yields r ok' P :=
  ⟨fun hOk => h.1 (hIff.mpr hOk), fun hNot => h.2 fun hOk => hNot (hIff.mp hOk)⟩

theorem bind {f : α → Option β} (h : Yields r ok P) (hNext : ok → ∀ a, P a → Yields (f a) ok' Q) :
    Yields (r.bind f) (ok ∧ ok') Q := by
  constructor
  · rintro ⟨hOk, hOk'⟩
    obtain ⟨a, rfl, ha⟩ := h.1 hOk
    exact (hNext hOk a ha).1 hOk'
  · intro hNot
    by_cases hOk : ok
    · obtain ⟨a, rfl, ha⟩ := h.1 hOk
      exact (hNext hOk a ha).2 fun hOk' => hNot ⟨hOk, hOk'⟩
    · rw [h.2 hOk]
      rfl

theorem map {f : α → β} (h : Yields r ok P) (hNext : ∀ a, P a → Q (f a)) :
    Yields (r.map f) ok Q := by
  constructor
  · intro hOk
    obtain ⟨a, rfl, ha⟩ := h.1 hOk
    exact ⟨f a, rfl, hNext a ha⟩
  · intro hNot
    rw [h.2 hNot]
    rfl

theorem isSome_iff (h : Yields r ok P) : r.isSome ↔ ok := by
  constructor
  · intro hSome
    by_contra hNot
    rw [h.2 hNot] at hSome
    cases hSome
  · intro hOk
    obtain ⟨a, rfl, -⟩ := h.1 hOk
    rfl

end Yields

section Chain

variable (base power digits : Nat)

/-- The last digits of a power of `base`. -/
def residue (n : Nat) : Nat := base ^ n % 10 ^ digits

/-- The factors for the lowest `j` bits of the exponent. -/
def factors (j : Nat) : List Int :=
  ((List.range j).filter fun k => power.testBit k).map fun k => wrap (residue base digits (2 ^ k))

/-- Every squaring fits, and so does every product for a bit of the exponent below
the highest one. -/
def ChainFits : Prop :=
  (∀ k < Nat.log 2 power,
    MulFits digits (residue base digits (2 ^ k)) (residue base digits (2 ^ k))) ∧
  ∀ k < Nat.log 2 power, power.testBit k = true →
    MulFits digits (residue base digits (2 ^ Nat.log 2 power + power % 2 ^ k))
      (residue base digits (2 ^ k))

variable {base power digits}

theorem residue_mul (m n : Nat) :
    residue base digits m * residue base digits n % 10 ^ digits = residue base digits (m + n) := by
  rw [residue, residue, residue, ← Nat.mul_mod, pow_add]

theorem one_lt_div_iff (hPower : 1 ≤ power) (j : Nat) :
    1 < power / 2 ^ j ↔ j < Nat.log 2 power := by
  have hPow : 0 < 2 ^ j := Nat.pow_pos (by decide)
  rw [← Nat.succ_le_iff, Nat.le_div_iff_mul_le hPow, ← Nat.succ_le_iff,
    Nat.le_log_iff_pow_le (by decide) (by omega), pow_succ, Nat.mul_comm]

theorem factors_succ (j : Nat) :
    factors base power digits (j + 1) =
      if 0 < power / 2 ^ j % 2 then
        factors base power digits j ++ [wrap (residue base digits (2 ^ j))]
      else factors base power digits j := by
  rw [factors, List.range_succ, List.filter_append, List.map_append, ← factors]
  have hBit : power.testBit j = decide (0 < power / 2 ^ j % 2) := by
    rw [Nat.testBit_eq_decide_div_mod_eq, decide_eq_decide]
    omega
  rw [List.filter_singleton, hBit]
  split_ifs with hSet
  · rw [decide_eq_true hSet]
    rfl
  · rw [decide_eq_false hSet]
    exact List.append_nil _

theorem squareLoop_spec (hPower : 1 ≤ power) (hDigits : digits ≤ 19) {rounds : Nat} (j : Nat)
    (hj : j ≤ Nat.log 2 power) (hRounds : Nat.log 2 power - j < rounds) {v : List Int}
    (h : Holds digits v (residue base digits (2 ^ j))) :
    Yields (squareLoop checked digits rounds v (wrap (residue base digits (2 ^ j))) (power / 2 ^ j)
        (factors base power digits j))
      (∀ k, j ≤ k → k < Nat.log 2 power →
        MulFits digits (residue base digits (2 ^ k)) (residue base digits (2 ^ k)))
      fun r => r.2 = factors base power digits (Nat.log 2 power) ∧
        Holds digits r.1 (residue base digits (2 ^ Nat.log 2 power)) := by
  induction rounds generalizing j v with
  | zero => omega
  | succ rounds ih =>
      rw [squareLoop]
      by_cases hMore : 1 < power / 2 ^ j
      · rw [if_pos hMore]
        have hLt := (one_lt_div_iff hPower j).mp hMore
        have hSquare := h.square hDigits
        rw [residue_mul, ← Nat.two_mul, ← pow_succ'] at hSquare
        have hKeep : Yields (Power_Large.multiplyKeep checked digits v
            (wrap (residue base digits (2 ^ j))))
            (MulFits digits (residue base digits (2 ^ j)) (residue base digits (2 ^ j)))
            fun v' => Holds digits v' (residue base digits (2 ^ (j + 1))) :=
          ⟨fun hFits => (hSquare.1 hFits).2, hSquare.2⟩
        dsimp only
        rw [← factors_succ, Nat.div_div_eq_div_mul, ← pow_succ]
        have hBoth := hKeep.bind fun _ v' hv' => by
          have hNext := ih (j + 1) hLt (by omega) hv'
          rwa [← hv'.value_eq, ← large_int_get_eq] at hNext
        refine hBoth.congr ⟨?_, fun hAll =>
          ⟨hAll j (Nat.le_refl j) hLt, fun k hk => hAll k (by omega)⟩⟩
        rintro ⟨hFirst, hRest⟩ k hk hkLt
        rcases Nat.eq_or_lt_of_le hk with rfl | hLater
        · exact hFirst
        · exact hRest k hLater hkLt
      · rw [if_neg hMore]
        have hEnd : j = Nat.log 2 power := by
          have hNot := (one_lt_div_iff hPower j).not.mp hMore
          omega
        subst hEnd
        refine Yields.congr (Yields.pure ⟨rfl, h⟩) (iff_of_true trivial fun k hk hkLt => ?_)
        omega

/-- The bits from `k` on, `n` of them, are still to be multiplied with. -/
theorem productLoop_spec (n k : Nat) {v : List Int} (e : Nat)
    (hSmall : ∀ i, k ≤ i → i < k + n → residue base digits (2 ^ i) < 2 ^ 63)
    (h : Holds digits v (residue base digits (e + power % 2 ^ k))) :
    Yields (productLoop checked digits v (((List.range' k n).filter fun i => power.testBit i).map
        fun i => wrap (residue base digits (2 ^ i))))
      (∀ i, k ≤ i → i < k + n → power.testBit i = true →
        MulFits digits (residue base digits (e + power % 2 ^ i)) (residue base digits (2 ^ i)))
      fun v' => Holds digits v' (residue base digits (e + power % 2 ^ (k + n))) := by
  induction n generalizing k v with
  | zero =>
      refine Yields.congr (Yields.pure h) (iff_of_true trivial fun i hi hLt => ?_)
      omega
  | succ n ih =>
      have hMod : power % 2 ^ (k + 1) =
          power % 2 ^ k + if power.testBit k then 2 ^ k else 0 := by
        rw [Nat.mod_pow_succ, Nat.testBit_eq_decide_div_mod_eq]
        rcases Nat.mod_two_eq_zero_or_one (power / 2 ^ k) with hZero | hOne
        · rw [hZero, Nat.mul_zero]
          rfl
        · rw [hOne, Nat.mul_one]
          rfl
      have hRest := fun i (hi : k + 1 ≤ i) (hLt : i < k + 1 + n) =>
        hSmall i (by omega) (by omega)
      rw [List.range'_succ]
      by_cases hBit : power.testBit k
      · rw [List.filter_cons_of_pos hBit, List.map_cons, productLoop,
          wrap_of_lt (hSmall k (Nat.le_refl k) (by omega))]
        have hKeep := h.multiplyKeep (residue base digits (2 ^ k))
        rw [residue_mul, Nat.add_assoc] at hKeep
        rw [if_pos hBit] at hMod
        rw [← hMod] at hKeep
        have hBoth := Yields.bind hKeep fun _ v' hv' => ih (k + 1) hRest hv'
        rw [show k + 1 + n = k + (n + 1) by omega] at hBoth
        refine hBoth.congr ⟨?_, fun hAll => ⟨hAll k (Nat.le_refl k) (by omega) hBit,
          fun i hi => hAll i (by omega)⟩⟩
        rintro ⟨hFirst, hLater⟩ i hi hLt hSet
        rcases Nat.eq_or_lt_of_le hi with rfl | hGt
        · exact hFirst
        · exact hLater i hGt hLt hSet
      · rw [List.filter_cons_of_neg hBit]
        rw [if_neg hBit, Nat.add_zero] at hMod
        have hSkip := ih (k + 1) hRest (by rwa [hMod])
        rw [show k + 1 + n = k + (n + 1) by omega] at hSkip
        refine hSkip.congr ⟨?_, fun hAll i hi => hAll i (by omega)⟩
        intro hLater i hi hLt hSet
        rcases Nat.eq_or_lt_of_le hi with rfl | hGt
        · exact absurd hSet hBit
        · exact hLater i hGt hLt hSet

theorem two_pow_log_add_mod (hPower : 1 ≤ power) :
    2 ^ Nat.log 2 power + power % 2 ^ Nat.log 2 power = power := by
  have hLow := Nat.pow_log_le_self 2 (show power ≠ 0 by omega)
  have hHigh := Nat.lt_pow_succ_log_self (b := 2) (by decide) power
  rw [Nat.succ_eq_add_one, pow_succ] at hHigh
  rw [Nat.mod_eq_sub_mod hLow, Nat.mod_eq_of_lt (by omega)]
  omega

/-- The digits of the base itself. -/
theorem holds_fill {ds : List Int} (h : Digits 10 ds) (hTrimmed : Trimmed 1 ds)
    (hValue : value 10 ds = base) (hBase : base < 10 ^ digits) (hDigits : 1 ≤ digits) :
    Holds digits ds base := by
  refine ⟨h, ?_, hValue⟩
  by_contra hLong
  have hLow := pow_le_of_getLast h (List.length_pos_iff.mp hTrimmed.1) (hTrimmed.2 (by omega))
  rw [hValue] at hLow
  have hPow : (10 : Int) ^ digits ≤ 10 ^ (ds.length - 1) :=
    pow_le_pow_right₀ (by decide) (by omega)
  have hBase : (base : Int) < 10 ^ digits := by exact_mod_cast hBase
  omega

/-- All the products that were put off. -/
theorem products_spec (hPower : 1 ≤ power) (hDigits : digits ≤ 19)
    (hFits : ∀ k < Nat.log 2 power,
      MulFits digits (residue base digits (2 ^ k)) (residue base digits (2 ^ k)))
    {v : List Int} (h : Holds digits v (residue base digits (2 ^ Nat.log 2 power))) :
    Yields (productLoop checked digits v (factors base power digits (Nat.log 2 power)))
      (∀ k < Nat.log 2 power, power.testBit k = true →
        MulFits digits (residue base digits (2 ^ Nat.log 2 power + power % 2 ^ k))
          (residue base digits (2 ^ k)))
      fun v' => Holds digits v' (residue base digits power) := by
  have hSmall : ∀ i, 0 ≤ i → i < 0 + Nat.log 2 power → residue base digits (2 ^ i) < 2 ^ 63 := by
    intro i _ hLt
    have hRange : residue base digits (2 ^ i) < 10 ^ digits :=
      Nat.mod_lt _ (Nat.pow_pos (by decide))
    exact lt_of_mulFits hRange hDigits (hFits i (by omega))
  have hProducts := @productLoop_spec base power digits (Nat.log 2 power) 0 v
    (2 ^ Nat.log 2 power) hSmall (by rwa [pow_zero, Nat.mod_one, Nat.add_zero])
  rw [← List.range_eq_range', Nat.zero_add, two_pow_log_add_mod hPower] at hProducts
  refine hProducts.congr ?_
  simp only [Nat.zero_le, true_implies]

/-- The checked run is defined exactly if the chain fits, and then it is the power
as a `long long`. -/
theorem compute_checked (hPower : 1 ≤ power) (hDigits : 1 ≤ digits ∧ digits ≤ 19)
    (hBase : base < 10 ^ digits ∧ base < 2 ^ 63) :
    Yields (compute checked base power digits) (ChainFits base power digits)
      fun r => r = wrap (residue base digits power) := by
  have hResidue : residue base digits (2 ^ 0) = base := by
    rw [residue, pow_zero, pow_one, Nat.mod_eq_of_lt hBase.1]
  obtain ⟨ds, hFill, hDs, hTrimmed, hValue⟩ := large_int_fill_spec (s := .decimal) (t := 64)
    (Int.natCast_nonneg base) (by decide) (by norm_num; omega) []
  have hHolds : Holds digits ds (residue base digits (2 ^ 0)) := by
    rw [hResidue]
    exact holds_fill hDs hTrimmed hValue hBase.1 hDigits.1
  have hSquares := squareLoop_spec hPower hDigits.2 0 (Nat.zero_le _)
    (Nat.log_lt_self 2 (show power ≠ 0 by omega)) hHolds
  have hStart : factors base power digits 0 = [] := rfl
  rw [hResidue, wrap_of_lt hBase.2, pow_zero, Nat.div_one, hStart] at hSquares
  have hNext : (∀ k, 0 ≤ k → k < Nat.log 2 power →
        MulFits digits (residue base digits (2 ^ k)) (residue base digits (2 ^ k))) →
      ∀ r : List Int × List Int, r.2 = factors base power digits (Nat.log 2 power) ∧
        Holds digits r.1 (residue base digits (2 ^ Nat.log 2 power)) →
      Yields (((productLoop checked digits r.1 r.2).map fun v => (large_int_get v, v.length)))
        (∀ k < Nat.log 2 power, power.testBit k = true →
          MulFits digits (residue base digits (2 ^ Nat.log 2 power + power % 2 ^ k))
            (residue base digits (2 ^ k)))
        fun r => r.1 = wrap (residue base digits power) := by
    intro hFits r hr
    rw [hr.1]
    have hProducts := products_spec hPower hDigits.2 (fun k hk => hFits k (Nat.zero_le k) hk) hr.2
    refine hProducts.map fun v hv => ?_
    rw [large_int_get_eq, hv.value_eq]
  have hBoth := hSquares.bind hNext
  simp only [Nat.zero_le, true_implies] at hBoth
  rw [compute, compute_2, hFill, List.nil_append, Option.bind_some]
  exact hBoth.map fun r hr => hr

end Chain

section Wrapping

theorem wrapping_of_checked {x y : Int} (h : checked x = some y) : wrapping x = some y := by
  rw [checked, fits] at h
  obtain ⟨hFits, hEq⟩ := Option.ite_none_right_eq_some.mp h
  obtain rfl := Option.some.inj hEq
  rw [wrapping, wrap]
  have hLow := hFits.1
  have hHigh := hFits.2
  norm_num at hLow hHigh
  rw [Int.bmod_eq_of_le (by norm_num; omega) (by norm_num; omega)]

theorem multiplyLoop_wrapping {factor carry : Int} {v : List Int} {r : List Int × Int}
    (h : multiplyLoop checked factor carry v = some r) :
    multiplyLoop wrapping factor carry v = some r := by
  induction v generalizing carry r with
  | nil => exact h
  | cons x v ih =>
      rw [multiplyLoop] at h ⊢
      obtain ⟨product, hProduct, h⟩ := Option.bind_eq_some_iff.mp h
      obtain ⟨sum, hSum, h⟩ := Option.bind_eq_some_iff.mp h
      obtain ⟨digit, hDigit, h⟩ := Option.bind_eq_some_iff.mp h
      obtain ⟨rest, hRest, h⟩ := Option.map_eq_some_iff.mp h
      rw [wrapping_of_checked hProduct, Option.bind_some, wrapping_of_checked hSum,
        Option.bind_some, hDigit, Option.bind_some, ih hRest, Option.map_some, h]

theorem multiplyKeep_wrapping {digits : Nat} {v v' : List Int} {factor : Int}
    (h : multiplyKeep checked digits v factor = some v') :
    multiplyKeep wrapping digits v factor = some v' := by
  rw [multiplyKeep, large_int_multiply] at h ⊢
  obtain ⟨product, hProduct, hKeep⟩ := Option.map_eq_some_iff.mp h
  obtain ⟨r, hLoop, hFill⟩ := Option.bind_eq_some_iff.mp hProduct
  rw [multiplyLoop_wrapping hLoop, Option.bind_some, hFill, Option.map_some, hKeep]

theorem squareLoop_wrapping {digits rounds power : Nat} {v bases : List Int} {base : Int}
    {r : List Int × List Int} (h : squareLoop checked digits rounds v base power bases = some r) :
    squareLoop wrapping digits rounds v base power bases = some r := by
  induction rounds generalizing v base power bases with
  | zero => exact h
  | succ rounds ih =>
      rw [squareLoop] at h ⊢
      by_cases hMore : 1 < power
      · rw [if_pos hMore] at h ⊢
        obtain ⟨v', hKeep, hRest⟩ := Option.bind_eq_some_iff.mp h
        dsimp only
        rw [multiplyKeep_wrapping hKeep, Option.bind_some]
        exact ih hRest
      · rwa [if_neg hMore] at h ⊢

theorem productLoop_wrapping {digits : Nat} {v v' bases : List Int}
    (h : productLoop checked digits v bases = some v') :
    productLoop wrapping digits v bases = some v' := by
  induction bases generalizing v with
  | nil => exact h
  | cons b bases ih =>
      rw [productLoop] at h ⊢
      obtain ⟨next, hKeep, hRest⟩ := Option.bind_eq_some_iff.mp h
      rw [multiplyKeep_wrapping hKeep, Option.bind_some, ih hRest]

/-- Where nothing overflows, the wrapped run is the checked one. -/
theorem compute_wrapping {base r : Int} {power digits : Nat}
    (h : compute checked base power digits = some r) :
    compute wrapping base power digits = some r := by
  rw [compute, compute_2] at h ⊢
  obtain ⟨result, hRun, hFirst⟩ := Option.map_eq_some_iff.mp h
  obtain ⟨ds, hFill, hRun⟩ := Option.bind_eq_some_iff.mp hRun
  obtain ⟨squares, hSquares, hRun⟩ := Option.bind_eq_some_iff.mp hRun
  obtain ⟨last, hLast, hResult⟩ := Option.map_eq_some_iff.mp hRun
  rw [hFill, Option.bind_some, squareLoop_wrapping hSquares, Option.bind_some]
  dsimp only at hLast ⊢
  rw [productLoop_wrapping hLast, Option.map_some, hResult, Option.map_some, hFirst]

end Wrapping

/-- The power is exact, and nothing overflows on the way, exactly if every product
of the chain fits and the result is a `long long`. -/
theorem compute_exact_iff (base power digits : Nat) (hPower : 1 ≤ power)
    (hDigits : 1 ≤ digits ∧ digits ≤ 19) (hBase : base < min (10 ^ digits) (2 ^ 63)) :
    (compute wrapping base power digits = some ((base ^ power % 10 ^ digits : Nat) : Int) ∧
        (compute checked base power digits).isSome) ↔
      ChainFits base power digits ∧ base ^ power % 10 ^ digits < 2 ^ 63 := by
  have hChecked := compute_checked hPower hDigits (lt_min_iff.mp hBase)
  rw [hChecked.isSome_iff, and_comm]
  refine and_congr_right fun hFits => ?_
  obtain ⟨r, hRun, hr⟩ := hChecked.1 hFits
  rw [compute_wrapping hRun, Option.some.injEq, show r = wrap (residue base digits power) from hr]
  constructor
  · intro hEq
    have hHigh : wrap (residue base digits power) < 9223372036854775808 := by
      rw [wrap]
      have hLt := Int.bmod_lt (x := (residue base digits power : Int)) (m := 2 ^ 64) (by decide)
      norm_num at hLt ⊢
      exact hLt
    rw [hEq] at hHigh
    norm_num
    omega
  · intro hSmall
    exact wrap_of_lt hSmall

/-- Up to 17 digits everything fits. -/
theorem chainFits_of_le {base power digits : Nat} (hDigits : digits ≤ 17) :
    ChainFits base power digits ∧ base ^ power % 10 ^ digits < 2 ^ 63 := by
  have hPow : 10 ^ digits ≤ 10 ^ 17 := Nat.pow_le_pow_right (by decide) hDigits
  have hMod : ∀ n, residue base digits n < 10 ^ 17 := fun n =>
    Nat.lt_of_lt_of_le (Nat.mod_lt _ (Nat.pow_pos (by decide))) hPow
  have hFits : ∀ X f, f < 10 ^ 17 → MulFits digits X f := by
    intro X f hf i _
    have hPos : 0 < 10 ^ i := Nat.pow_pos (by decide)
    have hLt : X % 10 ^ (i + 1) < 10 * 10 ^ i := by
      rw [← pow_succ']
      exact Nat.mod_lt _ (Nat.pow_pos (by decide))
    rw [Nat.div_lt_iff_lt_mul hPos]
    calc X % 10 ^ (i + 1) * f ≤ 10 * 10 ^ i * 10 ^ 17 :=
          Nat.mul_le_mul (Nat.le_of_lt hLt) (Nat.le_of_lt hf)
      _ = 10 ^ 18 * 10 ^ i := by ring
      _ < 2 ^ 63 * 10 ^ i := Nat.mul_lt_mul_of_pos_right (by decide) hPos
  refine ⟨⟨fun k _ => hFits _ _ (hMod _), fun k _ _ => hFits _ _ (hMod _)⟩, ?_⟩
  exact Nat.lt_trans (hMod power) (by decide)

/-- The square of eighteen nines. -/
theorem compute_nines :
    compute wrapping 999999999999999999 2 18 = some (-752854133968732159) ∧
      compute checked 999999999999999999 2 18 = none ∧
      999999999999999999 ^ 2 % 10 ^ 18 = 1 := by
  refine ⟨by decide +kernel, by decide +kernel, by norm_num⟩

/-- A power with seventeen digits. -/
theorem compute_exact_seventeen :
    compute wrapping (99999999999999999 : Nat) 77 17 =
        some ((99999999999999999 ^ 77 % 10 ^ 17 : Nat) : Int) ∧
      (compute checked (99999999999999999 : Nat) 77 17).isSome :=
  (compute_exact_iff 99999999999999999 77 17 (by decide) (by decide) (by decide)).mpr
    (chainFits_of_le (by decide))

end CppPerf.Numbers.Power_Large
