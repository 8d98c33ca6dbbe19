import CppPerf.Semantics.Positional
import Mathlib.Data.List.DropRight
import Mathlib.Tactic.LinearCombination

/-! Large integers as little-endian vectors of limbs. Arithmetic on machine
integers that does not fit is undefined behaviour; so are a failed assertion
and an iterator past the end. -/
namespace CppPerf.Numbers

/-- The value of a signed integer of `w` bits, if it has one. -/
def fits (w : Nat) (x : Int) : Option Int :=
  if -2 ^ (w - 1) ≤ x ∧ x < 2 ^ (w - 1) then some x else none

/-- An element type and the scale of the digits that are kept in it. -/
structure Scale where
  width : Nat
  base : Int
  two_le : 2 ≤ base
  le_billion : base ≤ 1000000000
  le_width : base ≤ 2 ^ (width - 1)

/-- One decimal digit in each `char`. -/
def Scale.decimal : Scale := ⟨8, 10, by decide, by decide, by decide⟩

/-- Nine decimal digits in each `int`. -/
def Scale.billion : Scale := ⟨32, 1000000000, by decide, by decide, by decide⟩

section Basic

variable (s : Scale)

/-- The loop from a carry on: the digits at `dest`, and the last carry. -/
def sum_int (offset : Int) : Int → List Int → List Int → Option (List Int × Int)
  | carry, [], _ => some ([], carry)
  | _, _ :: _, [] => none
  | carry, x :: first1, y :: first2 =>
      (fits 64 (x - offset)).bind fun sum =>
      (fits 64 (sum + y)).bind fun sum =>
      (fits 64 (sum - offset)).bind fun sum =>
      (fits 64 (carry + sum)).bind fun carry =>
      (fits s.width (carry.tmod s.base + offset)).bind fun digit =>
      (sum_int offset (carry.tdiv s.base) first1 first2).map fun (dest, carry) =>
        (digit :: dest, carry)

/-- The do-while loop; `rounds` bounds its iterations. -/
def fillLoop : Nat → Int → List Int → Option (List Int)
  | 0, _, _ => none
  | rounds + 1, init, large_int =>
      (fits s.width (init.tmod s.base)).bind fun digit =>
        if 0 < init.tdiv s.base then fillLoop rounds (init.tdiv s.base) (large_int ++ [digit])
        else some (large_int ++ [digit])

/-- Append the digits of an integer of `t` bits; there are at most `t` of them. -/
def large_int_fill (t : Nat) (large_int : List Int) (init : Int) : Option (List Int) :=
  (if init < 0 then fits t (-init) else some init).bind fun init => fillLoop s t init large_int

/-- Zeros up to the size of the longer vector. -/
def pad (v : List Int) (size : Nat) : List Int := v ++ List.replicate (size - v.length) 0

/-- Both vectors afterwards. Only the shorter one is padded. -/
def sum (v1 v2 : List Int) : Option (List Int × List Int) :=
  let p1 := pad v1 v2.length
  let p2 := pad v2 v1.length
  (sum_int s 0 0 p1 p2).bind fun (v1, carry) =>
    if 0 < carry then (large_int_fill s 64 v1 carry).map fun v1 => (v1, p2)
    else some (v1, p2)

/-- The loop from a carry on. -/
def multiplyLoop (factor : Int) : Int → List Int → Option (List Int × Int)
  | carry, [] => some ([], carry)
  | carry, x :: first1 =>
      (fits 64 (x * factor)).bind fun product =>
      (fits 64 (carry + product)).bind fun carry =>
      (fits s.width (carry.tmod s.base)).bind fun digit =>
      (multiplyLoop factor (carry.tdiv s.base) first1).map fun (dest, carry) =>
        (digit :: dest, carry)

def large_int_multiply (product : List Int) (factor : Int) : Option (List Int) :=
  (multiplyLoop s factor 0 product).bind fun (product, carry) =>
    if 0 < carry then large_int_fill s 64 product carry else some product

/-- One limb after the other; what is there is first padded to whole limbs. -/
def scaleDownLoop (scale_digits : Nat) : List Int → List Int → Option (List Int)
  | dest, [] => some dest
  | dest, n :: product =>
      let digits := dest.length % scale_digits
      let padded := if dest ≠ [] ∧ digits ≠ 0 then dest ++ List.replicate (scale_digits - digits) 0
        else dest
      (large_int_fill Scale.decimal 32 padded n).bind fun dest =>
        scaleDownLoop scale_digits dest product

def scale_down (product : List Int) (scale_digits : Nat) : Option (List Int) :=
  scaleDownLoop scale_digits [] product

end Basic

structure LargeInt where
  li : List Int

namespace LargeInt

def scale : Int := Scale.billion.base

def ofInt (n : Int) : Option LargeInt := (large_int_fill Scale.billion 32 [] n).map LargeInt.mk

/-- `*this += rhs`: both operands afterwards. -/
def addAssign (a rhs : LargeInt) : Option (LargeInt × LargeInt) :=
  (sum Scale.billion a.li rhs.li).map fun (v1, v2) => (⟨v1⟩, ⟨v2⟩)

/-- The operands of `+` are copies. -/
def plus (lhs rhs : LargeInt) : Option LargeInt := (lhs.addAssign rhs).map Prod.fst

/-- A digit and the borrow for the next one. -/
def settle (sum : Int) : Option (Int × Int) :=
  if sum < 0 then (fits 32 (sum + scale)).map fun sum => (sum, 1) else some (sum, 0)

/-- The first `transform`, over the limbs of `rhs`. -/
def subLoop : Int → List Int → List Int → Option (List Int × Int)
  | borrow, [], _ => some ([], borrow)
  | _, _ :: _, [] => none
  | borrow, c1 :: rhs, c2 :: li =>
      (fits 32 (c2 - c1)).bind fun sum =>
      (fits 32 (sum - borrow)).bind fun sum =>
      (settle sum).bind fun (digit, borrow) =>
      (subLoop borrow rhs li).map fun (dest, borrow) => (digit :: dest, borrow)

/-- The second `transform`, over the limbs above those of `rhs`. -/
def borrowLoop : Int → List Int → Option (List Int × Int)
  | borrow, [] => some ([], borrow)
  | borrow, c1 :: li =>
      (fits 32 (c1 - borrow)).bind fun sum =>
      (settle sum).bind fun (digit, borrow) =>
      (borrowLoop borrow li).map fun (dest, borrow) => (digit :: dest, borrow)

/-- `*this -= rhs`, with both assertions. -/
def subAssign (a rhs : LargeInt) : Option LargeInt :=
  if rhs.li.length ≤ a.li.length then
    let short_size := rhs.li.length
    (subLoop 0 rhs.li (a.li.take short_size)).bind fun (low, borrow) =>
      (if borrow ≠ 0 ∧ short_size < a.li.length then borrowLoop borrow (a.li.drop short_size)
        else some (a.li.drop short_size, borrow)).bind fun (high, borrow) =>
        if borrow = 0 then some ⟨low ++ high⟩ else none
  else none

/-- The limb at the front stays when all are zero. -/
def trim0 (a : LargeInt) : Option LargeInt :=
  match a.li.rdropWhile (· = 0), a.li with
  | [], [] => none
  | [], first :: _ => some ⟨[first]⟩
  | kept, _ => some ⟨kept⟩

/-- The loop over the limbs of `rhs`: `ans` and `temp_copy` afterwards. -/
def productLoop (lhs : List Int) : LargeInt → LargeInt → Nat → List Int →
    Option (LargeInt × LargeInt)
  | ans, temp_copy, _, [] => some (ans, temp_copy)
  | ans, temp_copy, power, y :: rhs =>
      if 0 < y then
        (large_int_multiply Scale.billion (List.replicate power 0 ++ lhs) y).bind fun shifted =>
          let (ans, temp_copy) :=
            if ans.li.length < shifted.length then (LargeInt.mk shifted, ans)
            else (ans, LargeInt.mk shifted)
          (ans.addAssign temp_copy).bind fun (ans, temp_copy) =>
            productLoop lhs ans temp_copy (power + 1) rhs
      else productLoop lhs ans temp_copy (power + 1) rhs

def multiply1 (lhs rhs : List Int) : Option LargeInt :=
  (ofInt 0).bind fun temp_copy => (productLoop lhs ⟨[0]⟩ temp_copy 0 rhs).map Prod.fst

/-- `lhs * rhs` -/
def times (lhs rhs : LargeInt) : Option LargeInt := multiply1 lhs.li rhs.li

/-- The digits from the most significant one on. -/
def get_str (digits : List Int) : String :=
  match digits.dropWhile (· = 0) with
  | [] => "0"
  | rest => String.ofList (rest.map fun c => Char.ofNat (c.toNat + 48))

def get (a : LargeInt) : Option String :=
  if a.li = [] then some "" else (scale_down a.li 9).map fun digits => get_str digits.reverse

/-- Sum of two ranges. If the first one is shorter, the sum is not computed. -/
def add (lhs rhs : List Int) : Option LargeInt :=
  (if lhs.length < rhs.length then some (pad lhs rhs.length, 0)
    else sum_int Scale.billion 0 0 lhs (pad rhs lhs.length)).bind fun (ans, carry) =>
    if carry ≠ 0 then (large_int_fill Scale.billion 64 ans carry).map LargeInt.mk
    else some ⟨ans⟩

end LargeInt

/-! What the loops over limbs compute, at any scale. No intermediate value
overflows, and the digits that are written stay below the scale. -/

open Positional

theorem fits_of_bounds {w : Nat} {x : Int} (hLow : -2 ^ (w - 1) ≤ x) (hHigh : x < 2 ^ (w - 1)) :
    fits w x = some x := if_pos ⟨hLow, hHigh⟩

theorem fits_32 {x : Int} (hLow : -2147483648 ≤ x) (hHigh : x < 2147483648) :
    fits 32 x = some x := fits_of_bounds hLow hHigh

theorem fits_64 {x : Int} (hLow : -9223372036854775808 ≤ x) (hHigh : x < 9223372036854775808) :
    fits 64 x = some x := fits_of_bounds hLow hHigh

namespace Scale

variable (s : Scale)

theorem base_pos : 0 < s.base := by
  have h := s.two_le
  omega

/-- A digit fits into the element type. -/
theorem fits_digit (c : Int) : fits s.width (c % s.base) = some (c % s.base) := by
  have hWidth := s.le_width
  have hPos := s.base_pos
  have hLow := Int.emod_nonneg c (show s.base ≠ 0 by omega)
  have hHigh := Int.emod_lt_of_pos c hPos
  exact fits_of_bounds (by omega) (by omega)

theorem fits_tmod {c : Int} (hc : 0 ≤ c) :
    fits s.width (c.tmod s.base) = some (c % s.base) := by
  rw [Int.tmod_eq_emod_of_nonneg hc, s.fits_digit]

theorem emod_bounds (c : Int) : 0 ≤ c % s.base ∧ c % s.base < s.base :=
  ⟨Int.emod_nonneg c (Int.ne_of_gt s.base_pos), Int.emod_lt_of_pos c s.base_pos⟩

/-- A carry and what it leaves at its digit. -/
theorem emod_add_ediv (c : Int) : c % s.base + s.base * (c / s.base) = c :=
  Int.emod_add_mul_ediv c s.base

end Scale

variable {s : Scale}

theorem sum_int_spec {xs ys : List Int} (hx : Digits s.base xs) (hy : Digits s.base ys)
    (hLength : xs.length = ys.length) {c : Int} (hc : 0 ≤ c ∧ c ≤ 1) :
    ∃ dest c', sum_int s 0 c xs ys = some (dest, c') ∧ Digits s.base dest ∧
      dest.length = xs.length ∧ (0 ≤ c' ∧ c' ≤ 1) ∧
      value s.base dest + s.base ^ xs.length * c' = value s.base xs + value s.base ys + c := by
  induction xs generalizing ys c with
  | nil =>
      obtain rfl := List.length_eq_zero_iff.mp hLength.symm
      exact ⟨[], c, rfl, digits_nil, rfl, hc, by simp⟩
  | cons x xs ih =>
      cases ys with
      | nil => cases hLength
      | cons y ys =>
          obtain ⟨hx, hxs⟩ := digits_cons.mp hx
          obtain ⟨hy, hys⟩ := digits_cons.mp hy
          have hBillion := s.le_billion
          have hPos := s.base_pos
          have hSum : 0 ≤ c + (x + y) := by omega
          have hCarry : 0 ≤ (c + (x + y)) / s.base ∧ (c + (x + y)) / s.base ≤ 1 := by
            refine ⟨Int.ediv_nonneg hSum (by omega), ?_⟩
            exact Int.lt_add_one_iff.mp (Int.ediv_lt_of_lt_mul hPos (by omega))
          obtain ⟨dest, c', hRun, hDest, hDestLength, hc', hValue⟩ :=
            ih hxs hys (Nat.succ.inj hLength) hCarry
          refine ⟨(c + (x + y)) % s.base :: dest, c', ?_, digits_cons.mpr ⟨s.emod_bounds _, hDest⟩,
            by rw [List.length_cons, hDestLength, List.length_cons], hc', ?_⟩
          · rw [sum_int, Int.sub_zero, fits_64 (by omega) (by omega), Option.bind_some,
              fits_64 (by omega) (by omega), Option.bind_some, Int.sub_zero,
              fits_64 (by omega) (by omega), Option.bind_some, fits_64 (by omega) (by omega),
              Option.bind_some, Int.add_zero, s.fits_tmod hSum, Option.bind_some,
              Int.tdiv_eq_ediv_of_nonneg hSum, hRun]
            rfl
          · have hDigit := s.emod_add_ediv (c + (x + y))
            simp only [value_cons, List.length_cons, pow_succ]
            linear_combination hDigit + s.base * hValue

theorem fillLoop_spec {rounds : Nat} {n : Int} (hn : 0 ≤ n) (hRounds : 0 < rounds)
    (hBound : n < 2 ^ rounds) (li : List Int) :
    ∃ ds, fillLoop s rounds n li = some (li ++ ds) ∧ Digits s.base ds ∧ Trimmed 1 ds ∧
      value s.base ds = n := by
  induction rounds generalizing n li with
  | zero => omega
  | succ rounds ih =>
      have hPos := s.base_pos
      have hTwo := s.two_le
      have hDigit := s.emod_add_ediv n
      have hOne : Digits s.base [n % s.base] := digits_cons.mpr ⟨s.emod_bounds n, digits_nil⟩
      rw [fillLoop, s.fits_tmod hn, Option.bind_some, Int.tdiv_eq_ediv_of_nonneg hn]
      split_ifs with hMore
      · have hNonneg := Int.ediv_nonneg hn (Int.le_of_lt hPos)
        have hLt : n / s.base < 2 ^ rounds := by
          apply Int.ediv_lt_of_lt_mul hPos
          have hMul := Int.mul_le_mul_of_nonneg_left hTwo
            (Int.pow_nonneg (show (0 : Int) ≤ 2 by omega) : (0 : Int) ≤ 2 ^ rounds)
          rw [pow_succ] at hBound
          omega
        have hRest : 0 < rounds := by
          by_contra hZero
          rw [Nat.eq_zero_of_not_pos hZero, pow_zero] at hLt
          omega
        obtain ⟨ds, hRun, hDigits, hTrimmed, hValue⟩ := ih hNonneg hRest hLt (li ++ [n % s.base])
        refine ⟨n % s.base :: ds, ?_, digits_cons.mpr ⟨s.emod_bounds n, hDigits⟩, ?_, ?_⟩
        · rw [hRun, List.append_assoc, List.singleton_append]
        · exact Trimmed.append (show [n % s.base].length = 1 from rfl) hTrimmed hDigits (by omega)
        · rw [value_cons, hValue]
          exact hDigit
      · refine ⟨[n % s.base], rfl, hOne, ⟨Nat.le_refl 1, fun h => absurd h (Nat.lt_irrefl 1)⟩, ?_⟩
        have hZero : n / s.base = 0 :=
          Int.le_antisymm (Int.not_lt.mp hMore) (Int.ediv_nonneg hn (Int.le_of_lt hPos))
        rw [hZero, Int.mul_zero, Int.add_zero] at hDigit
        rw [value_cons, value_nil, Int.mul_zero, Int.add_zero]
        exact hDigit

theorem large_int_fill_spec {t : Nat} {n : Int} (hn : 0 ≤ n) (ht : 0 < t) (hBound : n < 2 ^ t)
    (li : List Int) :
    ∃ ds, large_int_fill s t li n = some (li ++ ds) ∧ Digits s.base ds ∧ Trimmed 1 ds ∧
      value s.base ds = n := by
  rw [large_int_fill, if_neg (Int.not_lt.mpr hn), Option.bind_some]
  exact fillLoop_spec hn ht hBound li

/-- The digits of a carry, if there is one, on top of `n` digits. -/
theorem fill_carry_spec {low : List Int} (hLow : Digits s.base low) {carry : Int}
    (hCarry : 0 ≤ carry) (hBound : carry < 4294967296) :
    ∃ v, (if 0 < carry then large_int_fill s 64 low carry else some low) = some v ∧
      Digits s.base v ∧ Trimmed low.length v ∧
      value s.base v = value s.base low + s.base ^ low.length * carry := by
  split_ifs with hPos
  · have hBits : carry < 2 ^ 64 := Int.lt_trans hBound (by norm_num)
    obtain ⟨top, hRun, hTop, hTrimmed, hValue⟩ :=
      large_int_fill_spec (s := s) hCarry (by decide : 0 < 64) hBits low
    refine ⟨low ++ top, hRun, digits_append.mpr ⟨hLow, hTop⟩, ?_, ?_⟩
    · exact hTrimmed.append rfl hTop (by omega)
    · rw [value_append, hValue]
  · obtain rfl : carry = 0 := by omega
    exact ⟨low, rfl, hLow, ⟨Nat.le_refl _, fun h => absurd h (Nat.lt_irrefl _)⟩, by simp⟩

section Pad

variable {v : List Int} {n : Nat}

@[simp] theorem length_pad (v : List Int) (n : Nat) : (pad v n).length = max v.length n := by
  rw [pad, List.length_append, List.length_replicate]
  omega

@[simp] theorem value_pad (B : Int) (v : List Int) (n : Nat) :
    value B (pad v n) = value B v := by
  rw [pad, value_append, value_replicate_zero, Int.mul_zero, Int.add_zero]

theorem digits_pad (h : Digits s.base v) (n : Nat) : Digits s.base (pad v n) :=
  digits_append.mpr ⟨h, digits_replicate_zero s.base_pos _⟩

theorem pad_of_le (h : n ≤ v.length) : pad v n = v := by
  rw [pad, Nat.sub_eq_zero_of_le h, List.replicate_zero, List.append_nil]

end Pad

theorem sum_spec {v1 v2 : List Int} (h1 : Digits s.base v1) (h2 : Digits s.base v2) :
    ∃ v, sum s v1 v2 = some (v, pad v2 v1.length) ∧ Digits s.base v ∧
      Trimmed (max v1.length v2.length) v ∧
      value s.base v = value s.base v1 + value s.base v2 := by
  have hLength : (pad v1 v2.length).length = (pad v2 v1.length).length := by
    rw [length_pad, length_pad, Nat.max_comm]
  obtain ⟨low, carry, hRun, hLow, hLowLength, hCarry, hValue⟩ :=
    sum_int_spec (digits_pad h1 _) (digits_pad h2 _) hLength
      (show (0 : Int) ≤ 0 ∧ (0 : Int) ≤ 1 by omega)
  obtain ⟨v, hFill, hDigits, hTrimmed, hFilled⟩ := fill_carry_spec hLow hCarry.1 (by omega)
  refine ⟨v, ?_, hDigits, ?_, ?_⟩
  · rw [sum, hRun, Option.bind_some]
    dsimp only
    split_ifs at hFill ⊢ with hPos
    · rw [hFill]
      rfl
    · rw [Option.some.inj hFill]
  · rwa [hLowLength, length_pad] at hTrimmed
  · rw [value_pad, value_pad, Int.add_zero] at hValue
    rw [hFilled, hLowLength, hValue]

theorem multiplyLoop_spec {xs : List Int} (hx : Digits s.base xs) {factor carry : Int}
    (hFactor : 0 ≤ factor ∧ factor < 2147483648) (hCarry : 0 ≤ carry ∧ carry < 2147483648) :
    ∃ dest carry', multiplyLoop s factor carry xs = some (dest, carry') ∧ Digits s.base dest ∧
      dest.length = xs.length ∧ (0 ≤ carry' ∧ carry' < 2147483648) ∧
      value s.base dest + s.base ^ xs.length * carry' = value s.base xs * factor + carry := by
  induction xs generalizing carry with
  | nil => exact ⟨[], carry, rfl, digits_nil, rfl, hCarry, by simp⟩
  | cons x xs ih =>
      obtain ⟨hx, hxs⟩ := digits_cons.mp hx
      have hBillion := s.le_billion
      have hPos := s.base_pos
      have hProduct : 0 ≤ x * factor := Int.mul_nonneg hx.1 hFactor.1
      have hUpper : x * factor ≤ (s.base - 1) * 2147483647 :=
        Int.mul_le_mul (by omega) (by omega) hFactor.1 (by omega)
      have hSum : 0 ≤ carry + x * factor := by omega
      have hNext : 0 ≤ (carry + x * factor) / s.base ∧
          (carry + x * factor) / s.base < 2147483648 :=
        ⟨Int.ediv_nonneg hSum (by omega), Int.ediv_lt_of_lt_mul hPos (by omega)⟩
      obtain ⟨dest, carry', hRun, hDest, hLength, hLast, hValue⟩ := ih hxs hNext
      refine ⟨(carry + x * factor) % s.base :: dest, carry', ?_,
        digits_cons.mpr ⟨s.emod_bounds _, hDest⟩, by rw [List.length_cons, hLength,
          List.length_cons], hLast, ?_⟩
      · rw [multiplyLoop, fits_64 (by omega) (by omega), Option.bind_some,
          fits_64 (by omega) (by omega), Option.bind_some, s.fits_tmod hSum, Option.bind_some,
          Int.tdiv_eq_ediv_of_nonneg hSum, hRun]
        rfl
      · have hDigit := s.emod_add_ediv (carry + x * factor)
        simp only [value_cons, List.length_cons, pow_succ]
        linear_combination hDigit + s.base * hValue

theorem large_int_multiply_spec {v : List Int} (h : Digits s.base v) {factor : Int}
    (hFactor : 0 ≤ factor ∧ factor < 2147483648) :
    ∃ product, large_int_multiply s v factor = some product ∧ Digits s.base product ∧
      Trimmed v.length product ∧ value s.base product = value s.base v * factor := by
  obtain ⟨low, carry, hRun, hLow, hLength, hCarry, hValue⟩ :=
    multiplyLoop_spec h hFactor (show (0 : Int) ≤ 0 ∧ (0 : Int) < 2147483648 by omega)
  obtain ⟨product, hFill, hDigits, hTrimmed, hFilled⟩ :=
    fill_carry_spec hLow hCarry.1 (by omega)
  refine ⟨product, ?_, hDigits, ?_, ?_⟩
  · rw [large_int_multiply, hRun]
    exact hFill
  · rwa [hLength] at hTrimmed
  · rw [hFilled, hLength, hValue, Int.add_zero]

end CppPerf.Numbers
