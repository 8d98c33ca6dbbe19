import CppPerf.Semantics.LongDivision
import CppPerf.Semantics.OrderedMap
import CppPerf.Text.Parsing
import Mathlib.Algebra.Order.Ring.Int
import Mathlib.Data.Finset.Card
import Mathlib.Order.Interval.Finset.Nat

/-! Decimal expansions of fractions: `solution3` of `jumpTrading.cpp` and
`repeatingDecimals` of `mathlib.h`. Both are long divisions that remember at
which position each remainder was met. A loop has no result when its rounds are
used up or a product does not fit into an `int`. -/
namespace CppPerf.Numbers

open Ordered CppPerf.Text

/-- `x * 10` as an `int`. -/
def timesTen (x : Int) : Option Int := if fitsInt (x * 10) then some (x * 10) else none

def decimalChar (d : Int) : Char := Char.ofNat (d + 48).toNat

/-- The loop of `solution3`: the digits, and where the repeating ones begin. -/
def solution3_loop (B : Int) :
    (rounds : Nat) → (A : Int) → (remainders_pos : OrderedMap Int Nat) → (pos : Nat) →
      (digits : List Int) → Option (List Int × Option Nat)
  | 0, _, _, _, _ => none
  | rounds + 1, A, remainders_pos, pos, digits =>
      if A = 0 then some (digits, none)
      else do
        let A ← timesTen A
        let digits := digits ++ [A.tdiv B]
        let A := A.tmod B
        match remainders_pos.lookup A with
        | some found => some (digits, some found)
        | none => solution3_loop B rounds A (remainders_pos.set A pos) (pos + 1) digits

/-- A digit and its position, with a bracket in front of the one at `found`. -/
def appendDigit (found : Nat) (decimal : List Char) (digit : Int × Nat) : List Char :=
  (if digit.2 = found then decimal ++ ['('] else decimal) ++ [decimalChar digit.1]

def appendDigits (found : Nat) (digits : List Int) (decimal : List Char) : List Char :=
  digits.zipIdx.foldl (appendDigit found) decimal

def solution3 (rounds : Nat) (A B : Int) : Option (List Char) :=
  let decimal := to_string (A.tdiv B)
  let A := A.tmod B
  if A = 0 then some decimal
  else
    let decimal := decimal ++ ['.']
    (solution3_loop B rounds A (OrderedMap.empty.set A 0) 1 []).map fun (digits, found) =>
      match found with
      | some found => appendDigits found digits decimal ++ [')']
      | none => decimal ++ digits.map decimalChar

/-- The loop of `repeatingDecimals`. -/
def repeatingDecimals_loop (denom : Int) :
    (rounds : Nat) → (numer : Int) → (remainders_pos : OrderedMap Int Nat) → (pos : Nat) →
      (decimals : List Int) → Option Int
  | 0, _, _, _, _ => none
  | rounds + 1, numer, remainders_pos, pos, decimals =>
      if numer = 0 then some 0
      else do
        let numer ← timesTen numer
        let decimals := decimals ++ [numer.tdiv denom]
        let numer := numer.tmod denom
        match remainders_pos.lookup numer with
        | none =>
            repeatingDecimals_loop denom rounds numer (remainders_pos.set numer pos) (pos + 1)
              decimals
        | some found => some (pos - found)

def repeatingDecimals (rounds : Nat) (numer denom : Int) : Option Int :=
  let numer := numer.tmod denom
  repeatingDecimals_loop denom rounds numer (OrderedMap.empty.set numer 0) 1 []

/-! The expansions are exact and as short as possible. -/

open Function LongDivision Orbit

/-- The text of a number with digits behind the point and a repeated block. -/
def expansion (n : ℕ) (front block : List ℕ) : List Char :=
  Nat.toDigits 10 n ++
    if front = [] ∧ block = [] then []
    else '.' :: front.map Nat.digitChar ++
      if block = [] then [] else '(' :: block.map Nat.digitChar ++ [')']

/-- The remainder after `i` steps. -/
def remainder (A B i : ℕ) : ℕ := (next 10 B)^[i] (A % B)

theorem remainder_lt (A : ℕ) {B : ℕ} (hB : 0 < B) (i : ℕ) : remainder A B i < B :=
  iterate_lt (Nat.mod_lt A hB) i

theorem remainder_succ (A B i : ℕ) : remainder A B (i + 1) = 10 * remainder A B i % B :=
  iterate_succ_apply' _ _ _

/-- The loops have met the remainders up to `k`, all of them different, and
have not ended. -/
structure Met (A B k : ℕ) (remainders_pos : OrderedMap Int ℕ) : Prop where
  lookup_iff : ∀ x i, remainders_pos.lookup x = some i ↔ i ≤ k ∧ x = (remainder A B i : Int)
  apart : ∀ a ≤ k, ∀ b ≤ k, remainder A B a = remainder A B b → a = b
  nonzero : ∀ i < k, remainder A B i ≠ 0

variable {A B k : ℕ} {remainders_pos : OrderedMap Int ℕ}

/-- There are fewer than `B` remainders other than zero. -/
theorem Met.lt (h : Met A B k remainders_pos) (hB : 0 < B) : k < B := by
  have hMaps : Set.MapsTo (remainder A B) (Finset.range k) (Finset.Ico 1 B) := by
    intro i hi
    have hLt := remainder_lt A hB i
    have hNe := h.nonzero i (by simpa using hi)
    simp only [Finset.coe_Ico, Set.mem_Ico]
    exact ⟨Nat.one_le_iff_ne_zero.mpr hNe, hLt⟩
  have hInj : Set.InjOn (remainder A B) (Finset.range k) := by
    intro a ha b hb hSame
    simp only [Finset.coe_range, Set.mem_Iio] at ha hb
    exact h.apart a ha.le b hb.le hSame
  have hCard := Finset.card_le_card_of_injOn _ hMaps hInj
  rw [Finset.card_range, Nat.card_Ico] at hCard
  omega

theorem Met.start (A B : ℕ) :
    Met A B 0 (OrderedMap.empty.set (remainder A B 0 : Int) 0) where
  lookup_iff x i := by
    by_cases hx : x = (remainder A B 0 : Int)
    · subst hx
      rw [OrderedMap.lookup_set_self, Option.some.injEq]
      constructor
      · rintro rfl
        exact ⟨Nat.le_refl 0, rfl⟩
      · intro h
        omega
    · rw [OrderedMap.lookup_set_of_ne _ _ hx]
      constructor
      · intro hNone
        simp [OrderedMap.lookup, OrderedMap.empty] at hNone
      · rintro ⟨hi, rfl⟩
        obtain rfl : i = 0 := by omega
        exact absurd rfl hx
  apart a ha b hb _ := by omega
  nonzero i hi := by omega

/-- A remainder that has not been met is added. -/
theorem Met.next (h : Met A B k remainders_pos) (hCurrent : remainder A B k ≠ 0)
    (hNew : remainders_pos.lookup (remainder A B (k + 1) : Int) = none) :
    Met A B (k + 1) (remainders_pos.set (remainder A B (k + 1) : Int) (k + 1)) := by
  have hOther : ∀ i ≤ k, remainder A B i ≠ remainder A B (k + 1) := by
    intro i hi hSame
    have hSome := (h.lookup_iff (remainder A B (k + 1) : Int) i).mpr ⟨hi, by rw [hSame]⟩
    rw [hNew] at hSome
    cases hSome
  constructor
  case lookup_iff =>
    intro x i
    by_cases hx : x = (remainder A B (k + 1) : Int)
    · subst hx
      rw [OrderedMap.lookup_set_self, Option.some.injEq]
      constructor
      · rintro rfl
        exact ⟨Nat.le_refl _, rfl⟩
      · rintro ⟨hi, hSame⟩
        by_contra hNe
        exact hOther i (by omega) (Int.natCast_inj.mp hSame).symm
    · rw [OrderedMap.lookup_set_of_ne _ _ hx, h.lookup_iff]
      constructor
      · rintro ⟨hi, rfl⟩
        exact ⟨by omega, rfl⟩
      · rintro ⟨hi, rfl⟩
        refine ⟨?_, rfl⟩
        by_contra hNot
        obtain rfl : i = k + 1 := by omega
        exact hx rfl
  case apart =>
    intro a ha b hb hSame
    by_cases hak : a = k + 1
    · by_cases hbk : b = k + 1
      · omega
      · rw [hak] at hSame
        exact absurd hSame.symm (hOther b (by omega))
    · by_cases hbk : b = k + 1
      · rw [hbk] at hSame
        exact absurd hSame (hOther a (by omega))
      · exact h.apart a (by omega) b (by omega) hSame
  case nonzero =>
    intro i hi
    by_cases hik : i = k
    · rw [hik]
      exact hCurrent
    · exact h.nonzero i (by omega)

/-- The digits as the loops collect them. -/
private def collected (A B k : ℕ) : List Int := (digits 10 B (A % B) k).map Nat.cast

theorem timesTen_remainder (A : ℕ) {B : ℕ} (hB : 0 < B) (hBound : B ≤ 214748364) (k : ℕ) :
    timesTen (remainder A B k : Int) = some ((10 * remainder A B k : ℕ) : Int) := by
  have hLt := remainder_lt A hB k
  have hFits : fitsInt ((remainder A B k : Int) * 10) = true := by
    simp only [fitsInt, Bool.and_eq_true, decide_eq_true_eq]
    omega
  rw [timesTen, if_pos hFits, Nat.cast_mul, Int.mul_comm]
  rfl

theorem tmod_remainder (A B k : ℕ) :
    ((10 * remainder A B k : ℕ) : Int).tmod B = (remainder A B (k + 1) : Int) := by
  rw [← Int.ofNat_tmod, remainder_succ]

theorem collected_succ (A B k : ℕ) :
    collected A B k ++ [((10 * remainder A B k : ℕ) : Int).tdiv B] = collected A B (k + 1) := by
  rw [collected, collected, digits_succ, List.map_append, List.map_singleton,
    ← Int.ofNat_tdiv, remainder]

/-- At a remainder that has not been met both loops go on. -/
theorem loops_next (hB : 0 < B) (hBound : B ≤ 214748364) (rounds : ℕ)
    (hZero : remainder A B k ≠ 0)
    (hNew : remainders_pos.lookup (remainder A B (k + 1) : Int) = none) :
    solution3_loop B (rounds + 1) (remainder A B k) remainders_pos (k + 1) (collected A B k) =
        solution3_loop B rounds (remainder A B (k + 1))
          (remainders_pos.set (remainder A B (k + 1) : Int) (k + 1)) (k + 1 + 1)
          (collected A B (k + 1)) ∧
      repeatingDecimals_loop B (rounds + 1) (remainder A B k) remainders_pos (k + 1)
          (collected A B k) =
        repeatingDecimals_loop B rounds (remainder A B (k + 1))
          (remainders_pos.set (remainder A B (k + 1) : Int) (k + 1)) (k + 1 + 1)
          (collected A B (k + 1)) := by
  have hInt : ((remainder A B k : ℕ) : Int) ≠ 0 := by exact_mod_cast hZero
  rw [solution3_loop, if_neg hInt, repeatingDecimals_loop, if_neg hInt,
    timesTen_remainder A hB hBound]
  simp only [Option.bind_eq_bind, Option.bind_some, tmod_remainder, collected_succ, hNew]
  trivial

/-- At a remainder that has been met both loops end. -/
theorem loops_found (hB : 0 < B) (hBound : B ≤ 214748364) (rounds : ℕ) {i : ℕ}
    (hZero : remainder A B k ≠ 0)
    (hFound : remainders_pos.lookup (remainder A B (k + 1) : Int) = some i) :
    solution3_loop B (rounds + 1) (remainder A B k) remainders_pos (k + 1) (collected A B k) =
        some (collected A B (k + 1), some i) ∧
      repeatingDecimals_loop B (rounds + 1) (remainder A B k) remainders_pos (k + 1)
          (collected A B k) = some (((k + 1 : ℕ) : Int) - i) := by
  have hInt : ((remainder A B k : ℕ) : Int) ≠ 0 := by exact_mod_cast hZero
  rw [solution3_loop, if_neg hInt, repeatingDecimals_loop, if_neg hInt,
    timesTen_remainder A hB hBound]
  simp only [Option.bind_eq_bind, Option.bind_some, tmod_remainder, collected_succ, hFound]
  trivial

/-- Both loops go on until the remainder is zero or has been met. -/
theorem loops_end (hB : 0 < B) (hBound : B ≤ 214748364) (rounds : ℕ)
    (h : Met A B k remainders_pos) (hRounds : B ≤ rounds + k) :
    (∃ m, remainder A B m = 0 ∧ (∀ i < m, remainder A B i ≠ 0) ∧
        solution3_loop B rounds (remainder A B k) remainders_pos (k + 1) (collected A B k) =
          some (collected A B m, none) ∧
        repeatingDecimals_loop B rounds (remainder A B k) remainders_pos (k + 1)
          (collected A B k) = some 0) ∨
      ∃ i j, FirstReturn (next 10 B) (A % B) i j ∧ (∀ l < j, remainder A B l ≠ 0) ∧
        solution3_loop B rounds (remainder A B k) remainders_pos (k + 1) (collected A B k) =
          some (collected A B j, some i) ∧
        repeatingDecimals_loop B rounds (remainder A B k) remainders_pos (k + 1)
          (collected A B k) = some ((j - i : ℕ) : Int) := by
  induction rounds generalizing k remainders_pos with
  | zero =>
      have hLt := h.lt hB
      omega
  | succ rounds ih =>
      by_cases hZero : remainder A B k = 0
      · refine Or.inl ⟨k, hZero, h.nonzero, ?_, ?_⟩
        · rw [solution3_loop, if_pos (by rw [hZero]; rfl)]
        · rw [repeatingDecimals_loop, if_pos (by rw [hZero]; rfl)]
      · cases hFound : remainders_pos.lookup (remainder A B (k + 1) : Int) with
        | none =>
            obtain ⟨hSolution, hRepeating⟩ := loops_next hB hBound rounds hZero hFound
            rw [hSolution, hRepeating]
            exact ih (h.next hZero hFound) (by omega)
        | some i =>
            obtain ⟨hi, hSame⟩ := (h.lookup_iff _ _).mp hFound
            obtain ⟨hSolution, hRepeating⟩ := loops_found hB hBound rounds hZero hFound
            refine Or.inr ⟨i, k + 1, ⟨by omega, Int.natCast_inj.mp hSame, ?_⟩, ?_, hSolution, ?_⟩
            · intro a ha b hb hab
              exact h.apart a (by omega) b (by omega) hab
            · intro l hl
              by_cases hlk : l = k
              · rw [hlk]
                exact hZero
              · exact h.nonzero l (by omega)
            · rw [hRepeating, Nat.cast_sub (by omega)]

/-- No bracket is written in digits away from `found`. -/
theorem foldl_appendDigits (found n : ℕ) (l : List Int) (decimal : List Char)
    (h : found < n ∨ n + l.length ≤ found) :
    (l.zipIdx n).foldl (appendDigit found) decimal = decimal ++ l.map decimalChar := by
  induction l generalizing n decimal with
  | nil => simp
  | cons d rest ih =>
      rw [List.length_cons] at h
      rw [List.zipIdx_cons, List.foldl_cons, ih (n + 1) _ (by omega), appendDigit,
        if_neg (by omega)]
      simp

theorem appendDigits_eq (front block : List Int) (hBlock : block ≠ []) (decimal : List Char) :
    appendDigits front.length (front ++ block) decimal =
      decimal ++ front.map decimalChar ++ '(' :: block.map decimalChar := by
  obtain ⟨d, rest, rfl⟩ := List.exists_cons_of_ne_nil hBlock
  rw [appendDigits, List.zipIdx_append, List.foldl_append,
    foldl_appendDigits _ 0 front decimal (by omega), List.zipIdx_cons, List.foldl_cons,
    foldl_appendDigits _ _ rest _ (by omega), appendDigit, if_pos (by omega)]
  simp

theorem decimalChar_eq {d : ℕ} (hd : d < 10) : decimalChar d = Nat.digitChar d := by
  have hAll : ∀ d < 10, decimalChar (d : ℕ) = Nat.digitChar d := by decide
  exact hAll d hd

theorem map_decimalChar {l : List ℕ} (h : ∀ d ∈ l, d < 10) :
    (l.map Nat.cast).map decimalChar = l.map Nat.digitChar := by
  rw [List.map_map]
  apply List.map_congr_left
  intro d hd
  exact decimalChar_eq (h d hd)

theorem to_string_natCast (n : ℕ) : to_string n = Nat.toDigits 10 n := by
  rw [to_string, if_neg (by omega), Int.natAbs_natCast]

/-- `solution3` writes the fraction in the shortest way, and
`repeatingDecimals` returns the length of its block. -/
theorem solution3_exact (A B : ℕ) (hB : 1 ≤ B) (hBound : B ≤ 214748364) (rounds : ℕ)
    (hRounds : B ≤ rounds) :
    ∃ front block, Shortest 10 A B (A / B) front block ∧
      solution3 rounds A B = some (expansion (A / B) front block) ∧
      repeatingDecimals rounds A B = some (block.length : Int) := by
  have hMod : (A : Int).tmod B = (remainder A B 0 : Int) := (Int.ofNat_tmod A B).symm
  have hDiv : to_string ((A : Int).tdiv B) = Nat.toDigits 10 (A / B) := by
    rw [← Int.ofNat_tdiv, to_string_natCast]
  have hEnd := loops_end hB hBound rounds (Met.start A B) (by omega)
  have hStart : collected A B 0 = [] := rfl
  rw [hStart, Nat.zero_add] at hEnd
  rw [solution3, repeatingDecimals, hMod, hDiv]
  rcases hEnd with ⟨m, hZero, hBefore, hSolution, hRepeating⟩ |
    ⟨i, j, hReturn, hBefore, hSolution, hRepeating⟩
  · have hShortest := shortest_of_zero hB (by decide) hZero hBefore
    refine ⟨_, [], hShortest, ?_, hRepeating⟩
    cases m with
    | zero => simp [hZero, expansion, digits]
    | succ m =>
        have hFirst : (remainder A B 0 : Int) ≠ 0 := by exact_mod_cast hBefore 0 (by omega)
        have hSome : digits 10 B (A % B) (m + 1) ≠ [] := by
          rw [← List.length_pos_iff, length_digits]
          omega
        have hChars := map_decimalChar fun d hd => hShortest.digits_lt d (by simpa using hd)
        simp only [if_neg hFirst, hSolution, Option.map_some, collected, hChars, expansion, hSome,
          false_and, ↓reduceIte]
        simp
  · have hShortest := shortest_of_return hB (by decide) hReturn hBefore
    have hLt := hReturn.lt
    have hLength : (digits 10 B (A % B) i).length = i := length_digits _ _
    have hBlock : (digits 10 B (A % B) j).drop i ≠ [] := by
      rw [← List.length_pos_iff, List.length_drop, length_digits]
      omega
    refine ⟨_, _, hShortest, ?_, ?_⟩
    · have hFirst : (remainder A B 0 : Int) ≠ 0 := by exact_mod_cast hBefore 0 (by omega)
      have hFront := map_decimalChar fun d hd =>
        hShortest.digits_lt d (List.mem_append_left _ hd)
      have hBack := map_decimalChar fun d hd =>
        hShortest.digits_lt d (List.mem_append_right _ hd)
      have hAppend := appendDigits_eq ((digits 10 B (A % B) i).map Nat.cast)
        (((digits 10 B (A % B) j).drop i).map Nat.cast) (by simpa using hBlock)
        (Nat.toDigits 10 (A / B) ++ ['.'])
      rw [List.length_map, hLength, ← List.map_append, ← digits_split _ hLt.le, hFront, hBack]
        at hAppend
      simp only [if_neg hFirst, hSolution, Option.map_some, collected, hAppend, expansion, hBlock,
        and_false, ↓reduceIte]
      simp
    · rw [hRepeating, List.length_drop, length_digits]

theorem solution3_exact_mixed :
    ∃ front block, Shortest 10 3 28 (3 / 28) front block ∧
      solution3 28 (3 : ℕ) (28 : ℕ) = some (expansion (3 / 28) front block) ∧
      repeatingDecimals 28 (3 : ℕ) (28 : ℕ) = some (block.length : Int) :=
  solution3_exact 3 28 (by decide) (by decide) 28 (by decide)

end CppPerf.Numbers
