import CppPerf.Semantics.Orbit
import Mathlib.Data.Nat.Digits.Defs
import Mathlib.Data.Rat.Cast.Order
import Mathlib.Tactic.FieldSimp
import Mathlib.Tactic.LinearCombination
import Mathlib.Tactic.Ring

/-! Long division in a base. The remainders form an orbit; the digits are those
of a fraction that ends, or comes back to an earlier remainder. -/
namespace LongDivision

open Function Orbit

variable {b B A : ℕ}

/-- The number of a list of digits, the first one being the most significant. -/
def numeral (b : ℕ) (l : List ℕ) : ℕ := Nat.ofDigits b l.reverse

@[simp] theorem numeral_nil : numeral b [] = 0 := rfl

theorem numeral_append (l l' : List ℕ) :
    numeral b (l ++ l') = numeral b l * b ^ l'.length + numeral b l' := by
  rw [numeral, List.reverse_append, Nat.ofDigits_append, List.length_reverse, numeral, numeral]
  ring

/-- The number with an integer part, digits behind the point, and a block of
digits that is repeated for ever. -/
def value (b n : ℕ) (front block : List ℕ) : ℚ :=
  n + numeral b front / b ^ front.length +
    numeral b block / (b ^ front.length * (b ^ block.length - 1))

/-- A way to write the fraction, with no more digits than any other way. -/
structure Shortest (b A B n : ℕ) (front block : List ℕ) : Prop where
  digits_lt : ∀ d ∈ front ++ block, d < b
  value_eq : value b n front block = A / B
  least : ∀ n' front' block', value b n' front' block' = A / B →
    front.length ≤ front'.length ∧ block.length ≤ block'.length

/-- The next remainder. -/
def next (b B r : ℕ) : ℕ := b * r % B

/-- The digits of the first `k` steps from a remainder. -/
def digits (b B r : ℕ) (k : ℕ) : List ℕ := (List.range k).map fun i => b * (next b B)^[i] r / B

@[simp] theorem length_digits (r k : ℕ) : (digits b B r k).length = k := by
  simp [digits]

theorem digits_succ (r k : ℕ) :
    digits b B r (k + 1) = digits b B r k ++ [b * (next b B)^[k] r / B] := by
  simp [digits, List.range_succ]

theorem iterate_lt {r : ℕ} (hr : r < B) (k : ℕ) : (next b B)^[k] r < B := by
  induction k with
  | zero => exact hr
  | succ k ih =>
      rw [iterate_succ_apply']
      exact Nat.mod_lt _ (by omega)

theorem digits_lt (hb : 0 < b) {r : ℕ} (hr : r < B) {k d : ℕ} (hd : d ∈ digits b B r k) :
    d < b := by
  simp only [digits, List.mem_map, List.mem_range] at hd
  obtain ⟨i, _, rfl⟩ := hd
  have hLt := iterate_lt (b := b) hr i
  rw [Nat.div_lt_iff_lt_mul (by omega), Nat.mul_comm b, Nat.mul_comm b]
  exact Nat.mul_lt_mul_of_pos_right hLt hb

/-- The remainders are those of the scaled dividends. -/
theorem iterate_next (k : ℕ) : (next b B)^[k] (A % B) = A * b ^ k % B := by
  induction k with
  | zero => rw [iterate_zero_apply, Nat.pow_zero, Nat.mul_one]
  | succ k ih =>
      rw [iterate_succ_apply', ih, next, Nat.mul_mod_mod, Nat.pow_succ]
      congr 1
      ring

/-- Dividend, digits and remainder after `k` steps. -/
theorem digits_spec (r k : ℕ) :
    r * b ^ k = B * numeral b (digits b B r k) + (next b B)^[k] r := by
  induction k with
  | zero => simp [digits]
  | succ k ih =>
      have hDivision := Nat.div_add_mod (b * (next b B)^[k] r) B
      have hLast : numeral b [b * (next b B)^[k] r / B] = b * (next b B)^[k] r / B := by
        simp [numeral]
      rw [digits_succ, numeral_append, List.length_singleton, pow_one, hLast,
        iterate_succ_apply', next, Nat.pow_succ]
      calc r * (b ^ k * b) = (r * b ^ k) * b := by ring
        _ = B * (numeral b (digits b B r k) * b) + b * (next b B)^[k] r := by
          rw [ih]
          ring
        _ = _ := by
          rw [Nat.mul_add, Nat.add_assoc, hDivision]

/-- The digits from step `j` on. -/
theorem digits_split (r : ℕ) {j k : ℕ} (h : j ≤ k) :
    digits b B r k = digits b B r j ++ (digits b B r k).drop j := by
  have hTake : (digits b B r k).take j = digits b B r j := by
    rw [digits, ← List.map_take, List.take_range, Nat.min_eq_left h, digits]
  rw [← hTake, List.take_append_drop]

/-- A division that ends gives a number without a block. -/
theorem value_of_zero (hB : 0 < B) (hb : 0 < b) {m : ℕ} (hEnd : (next b B)^[m] (A % B) = 0) :
    value b (A / B) (digits b B (A % B) m) [] = A / B := by
  have hSpec := digits_spec (b := b) (B := B) (A % B) m
  have hParts := Nat.div_add_mod A B
  rw [hEnd, Nat.add_zero] at hSpec
  have hSpecQ : ((A % B : ℕ) : ℚ) * b ^ m = B * numeral b (digits b B (A % B) m) := by
    exact_mod_cast hSpec
  have hPartsQ : (B : ℚ) * (A / B : ℕ) + (A % B : ℕ) = A := by exact_mod_cast hParts
  have hBQ : (B : ℚ) ≠ 0 := by exact_mod_cast hB.ne'
  have hbQ : (b : ℚ) ≠ 0 := by exact_mod_cast hb.ne'
  rw [value, length_digits, numeral_nil, Nat.cast_zero, zero_div, add_zero,
    ← hPartsQ]
  field_simp
  linear_combination -hSpecQ

/-- A division that comes back gives a number with a block. -/
theorem value_of_return (hB : 0 < B) (hb : 1 < b) {j k : ℕ} (hLt : j < k)
    (hReturn : (next b B)^[k] (A % B) = (next b B)^[j] (A % B)) :
    value b (A / B) (digits b B (A % B) j) ((digits b B (A % B) k).drop j) = A / B := by
  obtain ⟨t, rfl⟩ := Nat.exists_eq_add_of_le hLt.le
  have hStart := digits_spec (b := b) (B := B) (A % B) j
  have hEnd := digits_spec (b := b) (B := B) (A % B) (j + t)
  have hParts := Nat.div_add_mod A B
  have hLength : ((digits b B (A % B) (j + t)).drop j).length = t := by
    rw [List.length_drop, length_digits, Nat.add_sub_cancel_left]
  rw [hReturn, digits_split (A % B) hLt.le, numeral_append, hLength, Nat.pow_add] at hEnd
  have hStartQ : ((A % B : ℕ) : ℚ) * b ^ j =
      B * numeral b (digits b B (A % B) j) + ((next b B)^[j] (A % B) : ℕ) := by
    exact_mod_cast hStart
  have hEndQ : ((A % B : ℕ) : ℚ) * (b ^ j * b ^ t) =
      B * (numeral b (digits b B (A % B) j) * b ^ t +
        numeral b ((digits b B (A % B) (j + t)).drop j)) + ((next b B)^[j] (A % B) : ℕ) := by
    exact_mod_cast hEnd
  have hPartsQ : (B : ℚ) * (A / B : ℕ) + (A % B : ℕ) = A := by exact_mod_cast hParts
  have hBQ : (B : ℚ) ≠ 0 := by exact_mod_cast hB.ne'
  have hbQ : (b : ℚ) ≠ 0 := by exact_mod_cast (by omega : b ≠ 0)
  have hPow : (b : ℚ) ^ t - 1 ≠ 0 := by
    have hOne : 1 < b ^ t := Nat.one_lt_pow (by omega) hb
    have hOneQ : (1 : ℚ) < (b : ℚ) ^ t := by exact_mod_cast hOne
    exact sub_ne_zero.mpr hOneQ.ne'
  rw [value, length_digits, hLength, ← hPartsQ]
  field_simp
  linear_combination hStartQ - hEndQ

/-- A number without a block makes the scaled dividend a multiple. -/
theorem remainder_of_value_nil (hB : 0 < B) (hb : 0 < b) {n : ℕ} {front : List ℕ}
    (h : value b n front [] = A / B) : (next b B)^[front.length] (A % B) = 0 := by
  have hBQ : (B : ℚ) ≠ 0 := by exact_mod_cast hB.ne'
  have hbQ : (b : ℚ) ≠ 0 := by exact_mod_cast hb.ne'
  rw [value, numeral_nil, Nat.cast_zero, zero_div, add_zero] at h
  field_simp at h
  have hNat : (n * b ^ front.length + numeral b front) * B = A * b ^ front.length := by
    have hCast : ((n : ℚ) * b ^ front.length + numeral b front) * B = A * b ^ front.length := by
      linear_combination h
    exact_mod_cast hCast
  rw [iterate_next, ← hNat, Nat.mul_mod_left]

/-- A block makes a remainder come back. -/
theorem remainder_of_value (hB : 0 < B) (hb : 1 < b) {n : ℕ} {front block : List ℕ}
    (hBlock : block ≠ []) (h : value b n front block = A / B) :
    (next b B)^[front.length + block.length] (A % B) = (next b B)^[front.length] (A % B) := by
  have hBQ : (B : ℚ) ≠ 0 := by exact_mod_cast hB.ne'
  have hbQ : (b : ℚ) ≠ 0 := by exact_mod_cast (by omega : b ≠ 0)
  have hPow : (b : ℚ) ^ block.length - 1 ≠ 0 := by
    have hLength := List.length_pos_iff.mpr hBlock
    have hOne : 1 < b ^ block.length := Nat.one_lt_pow (by omega) hb
    have hOneQ : (1 : ℚ) < (b : ℚ) ^ block.length := by exact_mod_cast hOne
    exact sub_ne_zero.mpr hOneQ.ne'
  rw [value] at h
  field_simp at h
  have hNat : A * (b ^ front.length * b ^ block.length) +
      B * (n * b ^ front.length + numeral b front) =
        A * b ^ front.length + B * ((n * b ^ front.length + numeral b front) * b ^ block.length +
          numeral b block) := by
    have hCast : (A : ℚ) * (b ^ front.length * b ^ block.length) +
        B * (n * b ^ front.length + numeral b front) =
          A * b ^ front.length + B * ((n * b ^ front.length + numeral b front) * b ^ block.length +
            numeral b block) := by
      linear_combination -h
    exact_mod_cast hCast
  have hMod := congrArg (· % B) hNat
  simp only [Nat.add_mul_mod_self_left] at hMod
  rw [iterate_next, iterate_next, Nat.pow_add, hMod]

theorem shortest_of_zero (hB : 0 < B) (hb : 1 < b) {m : ℕ} (hEnd : (next b B)^[m] (A % B) = 0)
    (hBefore : ∀ i < m, (next b B)^[i] (A % B) ≠ 0) :
    Shortest b A B (A / B) (digits b B (A % B) m) [] where
  digits_lt d hd := by
    rw [List.append_nil] at hd
    exact digits_lt (by omega) (Nat.mod_lt A hB) hd
  value_eq := value_of_zero hB (by omega) hEnd
  least n' front' block' hValue := by
    refine ⟨?_, Nat.zero_le _⟩
    rw [length_digits]
    by_cases hBlock : block' = []
    · subst hBlock
      have hZero := remainder_of_value_nil hB (by omega) hValue
      by_contra hLt
      exact hBefore _ (by omega) hZero
    · have hFixed : next b B 0 = 0 := by rw [next, Nat.mul_zero, Nat.zero_mod]
      exact le_of_return hFixed hEnd hBefore (List.length_pos_iff.mpr hBlock)
        (remainder_of_value hB hb hBlock hValue)

theorem shortest_of_return (hB : 0 < B) (hb : 1 < b) {j k : ℕ}
    (h : FirstReturn (next b B) (A % B) j k)
    (hBefore : ∀ i < k, (next b B)^[i] (A % B) ≠ 0) :
    Shortest b A B (A / B) (digits b B (A % B) j) ((digits b B (A % B) k).drop j) where
  digits_lt d hd := by
    rw [← digits_split (A % B) h.lt.le] at hd
    exact digits_lt (by omega) (Nat.mod_lt A hB) hd
  value_eq := value_of_return hB hb h.lt h.returns
  least n' front' block' hValue := by
    rw [length_digits, List.length_drop, length_digits]
    have hBlock : block' ≠ [] := by
      rintro rfl
      have hZero := remainder_of_value_nil hB (by omega) hValue
      by_cases hFar : j ≤ front'.length
      · exact h.ne_of_ne hBefore _ hFar hZero
      · have hLt := h.lt
        exact hBefore _ (by omega) hZero
    exact h.minimal (List.length_pos_iff.mpr hBlock) (remainder_of_value hB hb hBlock hValue)

end LongDivision
