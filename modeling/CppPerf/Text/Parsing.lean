import Mathlib.Algebra.Ring.Int.Defs
import Mathlib.Algebra.Ring.Nat
import Mathlib.Data.List.TakeWhile
import Mathlib.Tactic.Common

/-! Strings and numbers as the standard library converts them. A string is the
list of its characters. -/
namespace CppPerf.Text

/-- The loop of `getline` over a stream. There is no token behind the last
separator, if nothing follows it. -/
def get_tokens (str : List Char) (sep : Char) : List (List Char) :=
  let fields := str.splitOn sep
  if fields.getLast? = some [] then fields.dropLast else fields

def isspace (c : Char) : Bool :=
  c = ' ' || c = '\t' || c = '\n' || c = '\x0b' || c = '\x0c' || c = '\r'

def fitsInt (x : Int) : Bool := -2 ^ 31 ≤ x && x < 2 ^ 31

/-- `to_string` of an `int`. -/
def to_string (x : Int) : List Char :=
  if x < 0 then '-' :: Nat.toDigits 10 x.natAbs else Nat.toDigits 10 x.natAbs

/-- The number in front of the string. `none` is an exception: there is no
number, or it does not fit into an `int`. -/
def stoi (str : List Char) : Option Int :=
  let rest := str.dropWhile isspace
  let negative : Bool := rest.head? = some '-'
  let rest := if rest.head? = some '-' ∨ rest.head? = some '+' then rest.tail else rest
  let digits := rest.takeWhile Char.isDigit
  let value : Int := Nat.ofDigitChars 10 digits 0
  let value := if negative then -value else value
  if digits = [] then none else if fitsInt value then some value else none

/-- The digits of an `int` and what is left behind them. -/
def read_digits (negative : Bool) (str : List Char) : Option (Int × List Char) :=
  let digits := str.takeWhile Char.isDigit
  let value : Int := Nat.ofDigitChars 10 digits 0
  let value := if negative then -value else value
  if digits = [] then none
  else if fitsInt value then some (value, str.dropWhile Char.isDigit) else none

/-- One `int` of a stream. -/
def read_int (str : List Char) : Option (Int × List Char) :=
  let rest := str.dropWhile isspace
  if rest.head? = some '-' then read_digits true rest.tail
  else if rest.head? = some '+' then read_digits false rest.tail
  else read_digits false rest

/-- `istream_iterator<int>` until the first failure. A number has one character at least. -/
def read_ints : (rounds : Nat) → List Char → List Int
  | 0, _ => []
  | rounds + 1, str =>
      match read_int str with
      | some (value, rest) => value :: read_ints rounds rest
      | none => []

/-- Words without separators come back as they were joined. -/
theorem get_tokens_intercalate {words : List (List Char)} {sep : Char}
    (h : ∀ w ∈ words, w ≠ [] ∧ sep ∉ w) : get_tokens ([sep].intercalate words) sep = words := by
  by_cases hNil : words = []
  · simp [hNil, get_tokens]
  · have hSplit := List.splitOn_intercalate sep (fun w hw => (h w hw).2) hNil
    have hLast : words.getLast? ≠ some [] := by
      intro hEmpty
      exact (h [] (List.mem_of_getLast? hEmpty)).1 rfl
    simp only [get_tokens, hSplit, if_neg hLast]

theorem isspace_of_isDigit {c : Char} (h : c.isDigit = true) : isspace c = false := by
  by_contra hSpace
  simp only [isspace, Bool.not_eq_false, Bool.or_eq_true, decide_eq_true_eq] at hSpace
  rcases hSpace with ((((rfl | rfl) | rfl) | rfl) | rfl) | rfl <;> simp at h

/-- A string of digits is its own number. -/
theorem stoi_digits {digits : List Char} (hNil : digits ≠ [])
    (hDigits : ∀ c ∈ digits, c.isDigit = true)
    (hSmall : Nat.ofDigitChars 10 digits 0 < 2 ^ 31) :
    stoi digits = some (Nat.ofDigitChars 10 digits 0 : Int) := by
  have hAll : digits.takeWhile Char.isDigit = digits := by
    rw [List.takeWhile_eq_self_iff]
    exact hDigits
  obtain ⟨c, rest, rfl⟩ := List.exists_cons_of_ne_nil hNil
  have hFirst := hDigits c (by simp)
  have hSpace := isspace_of_isDigit hFirst
  have hMinus : c ≠ '-' := by
    rintro rfl
    simp at hFirst
  have hPlus : c ≠ '+' := by
    rintro rfl
    simp at hFirst
  have hFits : fitsInt (Nat.ofDigitChars 10 (c :: rest) 0 : Int) = true := by
    simp only [fitsInt, Bool.and_eq_true, decide_eq_true_eq]
    omega
  simp only [stoi, List.dropWhile_cons, hSpace, Bool.false_eq_true, ↓reduceIte, List.head?_cons,
    Option.some.injEq, hMinus, hPlus, or_self, hAll, hNil, decide_false, hFits]

theorem isDigit_of_mem_toDigits {n : Nat} {c : Char} (h : c ∈ Nat.toDigits 10 n) :
    c.isDigit = true :=
  Nat.isDigit_of_mem_toDigits (by decide) (by decide) h

theorem read_int_space (str : List Char) : read_int (' ' :: str) = read_int str := by
  rw [read_int, read_int, List.dropWhile_cons_of_pos (by decide)]

theorem read_digits_toDigits (n : Nat) (negative : Bool) {rest : List Char}
    (hRest : ∀ c ∈ rest.head?, c.isDigit = false)
    (hFits : fitsInt (if negative then -(n : Int) else n) = true) :
    read_digits negative (Nat.toDigits 10 n ++ rest) =
      some (if negative then -(n : Int) else n, rest) := by
  have hDigits : ∀ c ∈ Nat.toDigits 10 n, c.isDigit = true :=
    fun c hc => isDigit_of_mem_toDigits hc
  have hStop : rest.takeWhile Char.isDigit = [] ∧ rest.dropWhile Char.isDigit = rest := by
    cases rest with
    | nil => exact ⟨rfl, rfl⟩
    | cons c rest => simp [hRest c rfl]
  have hNil : Nat.toDigits 10 n ≠ [] := List.ne_nil_of_length_pos Nat.length_toDigits_pos
  rw [read_digits, List.takeWhile_append_of_pos hDigits, List.dropWhile_append_of_pos hDigits,
    hStop.1, hStop.2, List.append_nil]
  simp only [Nat.ofDigitChars_ten_toDigits, if_neg hNil, hFits, ↓reduceIte]

/-- A number that was written is read back. -/
theorem read_int_to_string {x : Int} (hFits : fitsInt x = true) {rest : List Char}
    (hRest : ∀ c ∈ rest.head?, c.isDigit = false) :
    read_int (to_string x ++ rest) = some (x, rest) := by
  rw [to_string]
  by_cases hNeg : x < 0
  · have hValue : -(x.natAbs : Int) = x := by omega
    have hSkip : List.dropWhile isspace ('-' :: (Nat.toDigits 10 x.natAbs ++ rest)) =
        '-' :: (Nat.toDigits 10 x.natAbs ++ rest) := List.dropWhile_cons_of_neg (by decide)
    have hRead := read_digits_toDigits x.natAbs true hRest (by
      rwa [if_pos rfl, hValue])
    rw [if_pos rfl, hValue] at hRead
    rw [if_pos hNeg, List.cons_append, read_int, hSkip]
    exact hRead
  · have hValue : (x.natAbs : Int) = x := by omega
    have hRead := read_digits_toDigits x.natAbs false hRest (by
      rwa [if_neg Bool.false_ne_true, hValue])
    rw [if_neg Bool.false_ne_true, hValue] at hRead
    obtain ⟨d, ds, hDigits⟩ := List.exists_cons_of_ne_nil
      (List.ne_nil_of_length_pos (Nat.length_toDigits_pos (b := 10) (n := x.natAbs)))
    have hFirst : d.isDigit = true := isDigit_of_mem_toDigits (hDigits ▸ List.mem_cons_self)
    rw [if_neg hNeg, read_int, hDigits, List.cons_append,
      List.dropWhile_cons_of_neg (by simp [isspace_of_isDigit hFirst])]
    rw [hDigits, List.cons_append] at hRead
    rw [if_neg, if_neg]
    · exact hRead
    · rintro ⟨⟩
      simp at hFirst
    · rintro ⟨⟩
      simp at hFirst

theorem read_ints_of_some {str rest : List Char} {x : Int} (h : read_int str = some (x, rest))
    (rounds : Nat) : read_ints (rounds + 1) str = x :: read_ints rounds rest := by
  rw [read_ints, h]

theorem read_ints_space (rounds : Nat) (str : List Char) :
    read_ints rounds (' ' :: str) = read_ints rounds str := by
  cases rounds with
  | zero => rfl
  | succ rounds => rw [read_ints, read_ints, read_int_space]

/-- Numbers with a space behind each. -/
theorem read_ints_flatMap {values : List Int} (hFits : ∀ x ∈ values, fitsInt x = true)
    {rounds : Nat} (hRounds : values.length < rounds) :
    read_ints rounds (values.flatMap fun x => to_string x ++ [' ']) = values := by
  induction values generalizing rounds with
  | nil =>
      obtain ⟨rounds, rfl⟩ := Nat.exists_eq_add_of_lt hRounds
      rfl
  | cons x values ih =>
      obtain ⟨rounds, rfl⟩ := Nat.exists_eq_add_of_lt hRounds
      have hRead : read_int ((x :: values).flatMap fun x => to_string x ++ [' ']) =
          some (x, ' ' :: values.flatMap fun x => to_string x ++ [' ']) := by
        rw [List.flatMap_cons, List.append_assoc]
        refine read_int_to_string (hFits x List.mem_cons_self) ?_
        rintro c ⟨⟩
        rfl
      rw [read_ints_of_some hRead, read_ints_space,
        ih (fun y hy => hFits y (List.mem_cons_of_mem _ hy)) (by rw [List.length_cons]; omega)]

end CppPerf.Text
