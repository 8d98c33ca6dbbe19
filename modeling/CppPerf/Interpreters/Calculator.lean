import CppPerf.Text.Digits
import CppPerf.Text.IntPosition
import CppPerf.Text.Parsing
import Mathlib.Data.Option.Basic

/-! The tokens of `calculator.cpp`, and the numbers of its expressions. -/
namespace CppPerf.Interpreters

open CppPerf.Text

/-- An operator has the code of its character as its value. -/
structure Token where
  val : Int
  op : Bool

def Token.ofChar (c : Char) : Token := ⟨c.toNat, true⟩

def Token.ofInt (i : Int) : Token := ⟨i, false⟩

/-- `num * 10 + c - '0'`; every operation wraps around. -/
def readDigit (num : Int) (c : Char) : Int := int (int (int (num * 10) + c.toNat) - '0'.toNat)

/-- A number, with the spaces in front of it. -/
structure Literal where
  spaces : Nat
  digits : List Char
  ne_nil : digits ≠ []
  isDigit : ∀ c ∈ digits, c.isDigit = true

namespace Literal

def text (l : Literal) : List Char := List.replicate l.spaces ' ' ++ l.digits

def value (l : Literal) : Nat := Nat.ofDigitChars 10 l.digits 0

end Literal

/-- Plus or minus, with the spaces in front. -/
structure Sign where
  spaces : Nat
  minus : Bool

namespace Sign

def char (s : Sign) : Char := if s.minus then '-' else '+'

def text (s : Sign) : List Char := List.replicate s.spaces ' ' ++ [s.char]

def apply (s : Sign) (x y : Int) : Int := if s.minus then x - y else x + y

end Sign

/-- A number that is a value of `int`. -/
def checked (x : Int) : Option Int := if fitsInt x then some x else none

theorem checked_eq_some {x y : Int} (h : checked x = some y) :
    x = y ∧ -2 ^ 31 ≤ x ∧ x < 2 ^ 31 := by
  rw [checked, fitsInt] at h
  split_ifs at h with hFits
  rw [Bool.and_eq_true, decide_eq_true_eq, decide_eq_true_eq] at hFits
  exact ⟨Option.some.inj h, hFits⟩

theorem int_of_fits {x : Int} (h : -2 ^ 31 ≤ x ∧ x < 2 ^ 31) : int x = x := by
  rw [int, Int.bmod]
  omega

theorem digit_bounds {c : Char} (h : c.isDigit = true) : 48 ≤ c.toNat ∧ c.toNat ≤ 57 := by
  rw [Char.isDigit, Bool.and_eq_true, decide_eq_true_eq, decide_eq_true_eq] at h
  exact h

theorem readDigit_eq {c : Char} (hc : c.isDigit = true) {v : Nat}
    (h : 10 * v + (c.toNat - '0'.toNat) < 2 ^ 31) :
    readDigit v c = (10 * v + (c.toNat - '0'.toNat) : Nat) := by
  have hBounds := digit_bounds hc
  have hZero : '0'.toNat = 48 := rfl
  rw [hZero] at h
  rw [readDigit, hZero, int, int, int, Int.sub_eq_add_neg, Int.bmod_add_bmod, Int.add_assoc,
    Int.bmod_add_bmod, Int.bmod]
  omega

/-- More digits do not make a number smaller. -/
theorem le_ofDigitChars (digits : List Char) (v : Nat) : v ≤ Nat.ofDigitChars 10 digits v := by
  induction digits generalizing v with
  | nil => exact Nat.le_refl v
  | cons c digits ih =>
      rw [Nat.ofDigitChars_cons]
      exact Nat.le_trans (by omega) (ih _)

/-! `Calculator2` of `calculator.cpp`: no parentheses. -/

namespace Calculator2

/-- The quotient of two numbers, rounded towards zero. -/
def divide (x y : Int) : Option Int :=
  if y = 0 ∨ x = -2 ^ 31 ∧ y = -1 then none else some (x.tdiv y)

/-- The back of the vector comes first. -/
def multi_divide (tokens : List Token) (num : Int) : Option (List Token) :=
  match tokens with
  | [] => some [Token.ofInt num]
  | back :: rest =>
      if back.val = '*'.toNat then
        match rest with
        | [] => none
        | left :: rest => some (Token.ofInt (int (num * left.val)) :: rest)
      else if back.val = '/'.toNat then
        match rest with
        | [] => none
        | left :: rest => (divide left.val num).map fun num => Token.ofInt num :: rest
      else some (Token.ofInt num :: back :: rest)

structure Scan where
  tokens : List Token := []
  number : Bool := false
  num : Int := 0

/-- A number that has been read is pushed. -/
def flush (s : Scan) : Option Scan :=
  if s.number then (multi_divide s.tokens s.num).map fun tokens => ⟨tokens, false, 0⟩
  else some s

def scan (s : Scan) (c : Char) : Option Scan :=
  if c = '+' ∨ c = '-' ∨ c = '*' ∨ c = '/' ∨ c = ' ' then do
    let s ← flush s
    some (if c ≠ ' ' then { s with tokens := Token.ofChar c :: s.tokens } else s)
  else some { s with number := true, num := readDigit s.num c }

/-- The loop over the tokens behind the first one, from the front. -/
def addAll (ans : Int) : List Token → Option Int
  | [] => some ans
  | e :: rest =>
      if e.val = '+'.toNat then
        match rest with
        | [] => none
        | x :: rest => addAll (int (ans + x.val)) rest
      else if e.val = '-'.toNat then
        match rest with
        | [] => none
        | x :: rest => addAll (int (ans - x.val)) rest
      else addAll ans rest

def calculate (s : List Char) : Option Int := do
  let state ← s.foldlM scan {}
  let state ← flush state
  match state.tokens.reverse with
  | [] => some 0
  | front :: rest => addAll front.val rest

/-- Times or divided by, with the spaces in front. -/
structure Factor where
  spaces : Nat
  divides : Bool

def Factor.char (f : Factor) : Char := if f.divides then '/' else '*'

def Factor.text (f : Factor) : List Char := List.replicate f.spaces ' ' ++ [f.char]

inductive Product where
  | number (l : Literal)
  | more (left : Product) (f : Factor) (l : Literal)

inductive Sum where
  | product (p : Product)
  | more (left : Sum) (s : Sign) (p : Product)

def Product.text : Product → List Char
  | .number l => l.text
  | .more left f l => left.text ++ f.text ++ l.text

def Sum.text : Sum → List Char
  | .product p => p.text
  | .more left s p => left.text ++ s.text ++ p.text

/-- No value for a division by zero, or when a number is not an `int`. -/
def Product.value : Product → Option Int
  | .number l => checked l.value
  | .more left f l => do
      let x ← left.value
      let y ← checked l.value
      if f.divides then (if y = 0 then none else checked (x.tdiv y)) else checked (x * y)

def Sum.value : Sum → Option Int
  | .product p => p.value
  | .more left s p => do
      let x ← left.value
      let y ← p.value
      checked (s.apply x y)

end Calculator2

/-! `Calculator` of `calculator.cpp`: sums with parentheses. All levels share the position;
the caller moves it over the closing parenthesis. -/

namespace Calculator

/-- The back of the deque comes first. -/
def plus_minus (tokens : List Token) (num : Int) : Option (List Token) :=
  match tokens with
  | [] => some [Token.ofInt num]
  | back :: rest =>
      if back.val = '+'.toNat then
        match rest with
        | [] => none
        | left :: rest => some (Token.ofInt (int (num + left.val)) :: rest)
      else if back.val = '-'.toNat then
        match rest with
        | [] => none
        | left :: rest => some (Token.ofInt (int (left.val - num)) :: rest)
      else some (Token.ofInt num :: back :: rest)

/-- A number that is not negative has been read. -/
def flush (tokens : List Token) (num : Int) : Option (List Token × Int) :=
  if num ≥ 0 then (plus_minus tokens num).map fun tokens => (tokens, -1) else some (tokens, num)

/-- The first digit of a number begins with zero. -/
def started (num : Int) : Int := if num < 0 then 0 else num

/-- The loop, with the value that is returned and the position where it ends. A failed
`assert` is no value. -/
def calculateHelp (s : List Char) :
    (fuel : Nat) → (pos num : Int) → (tokens : List Token) → Option (Int × Int)
  | 0, _, _, _ => none
  | fuel + 1, pos, num, tokens =>
      if pos < int s.length then
        match charAt s pos with
        | none => none
        | some c =>
            if c = '+' ∨ c = '-' then do
              let (tokens, num) ← flush tokens num
              calculateHelp s fuel (following pos) num (Token.ofChar c :: tokens)
            else if c = '(' then do
              let (num, pos) ← calculateHelp s fuel (following pos) (-1) []
              let tokens ← plus_minus tokens num
              calculateHelp s fuel (following pos) (-1) tokens
            else if c = ')' then do
              let (tokens, _) ← flush tokens num
              if tokens.length = 1 then tokens.head?.map fun back => (back.val, pos) else none
            else if c = ' ' then do
              let (tokens, num) ← flush tokens num
              calculateHelp s fuel (following pos) num tokens
            else calculateHelp s fuel (following pos) (readDigit (started num) c) tokens
      else do
        let (tokens, _) ← flush tokens num
        tokens.head?.map fun back => (back.val, pos)

def calculate (fuel : Nat) (s : List Char) : Option (Int × Int) := calculateHelp s fuel 0 (-1) []

mutual

/-- The spaces are in front of the parentheses. -/
inductive Operand where
  | number (l : Literal)
  | group (spaces : Nat) (e : Sum) (closing : Nat)

inductive Sum where
  | operand (o : Operand)
  | more (left : Sum) (s : Sign) (o : Operand)

end

mutual

def Operand.text : Operand → List Char
  | .number l => l.text
  | .group spaces e closing =>
      List.replicate spaces ' ' ++ '(' :: (e.text ++ List.replicate closing ' ' ++ [')'])

def Sum.text : Sum → List Char
  | .operand o => o.text
  | .more left s o => left.text ++ s.text ++ o.text

end

mutual

/-- No value when a number is not an `int`. -/
def Operand.value : Operand → Option Int
  | .number l => checked l.value
  | .group _ e _ => e.value

def Sum.value : Sum → Option Int
  | .operand o => o.value
  | .more left s o => do
      let x ← left.value
      let y ← o.value
      checked (s.apply x y)

end

variable {s : List Char} {fuel : Nat} {pos num : Int} {tokens : List Token} {result : Int × Int}

/-- More fuel does no harm. -/
theorem calculateHelp_add (h : calculateHelp s fuel pos num tokens = some result) (extra : Nat) :
    calculateHelp s (fuel + extra) pos num tokens = some result := by
  induction fuel generalizing pos num tokens result with
  | zero => cases h
  | succ fuel ih =>
      rw [Nat.add_right_comm, calculateHelp]
      rw [calculateHelp] at h
      split_ifs at h ⊢ with hPos
      · split
        · rename_i hChar
          simp only [hChar] at h
          cases h
        · rename_i c hChar
          simp only [hChar] at h
          split_ifs at h ⊢ with hSign hOpen hClose hSpace
          · simp only [Option.bind_eq_bind, Option.bind_eq_some_iff] at h ⊢
            obtain ⟨x, hFlush, hRest⟩ := h
            exact ⟨x, hFlush, ih hRest⟩
          · simp only [Option.bind_eq_bind, Option.bind_eq_some_iff] at h ⊢
            obtain ⟨x, hInner, ts, hTokens, hRest⟩ := h
            exact ⟨x, ih hInner, ts, hTokens, ih hRest⟩
          · exact h
          · simp only [Option.bind_eq_bind, Option.bind_eq_some_iff] at h ⊢
            obtain ⟨x, hFlush, hRest⟩ := h
            exact ⟨x, hFlush, ih hRest⟩
          · exact ih h
      · exact h

theorem calculateHelp_of_le {more : Nat} (h : calculateHelp s fuel pos num tokens = some result)
    (hLe : fuel ≤ more) : calculateHelp s more pos num tokens = some result := by
  obtain ⟨extra, rfl⟩ := Nat.exists_eq_add_of_le hLe
  exact calculateHelp_add h extra

end Calculator

end CppPerf.Interpreters
