import CppPerf.Interpreters.Calculator

/-! The value that `Calculator` computes, and where its position ends. -/
namespace CppPerf.Interpreters

open CppPerf.Text

namespace Calculator

variable {s front tail : List Char} {fuel : Nat} {num : Int} {tokens after : List Token}
  {result : Int × Int}

/-- The tokens are these as soon as a pending number is pushed. -/
def Closed (tokens : List Token) (num : Int) (after : List Token) : Prop :=
  ∃ m, m < 0 ∧ flush tokens num = some (after, m)

theorem closed_negative (hNum : num < 0) : Closed tokens num tokens :=
  ⟨num, hNum, if_neg (by omega)⟩

theorem closed_number {v : Nat} (h : plus_minus tokens v = some after) :
    Closed tokens v after := by
  refine ⟨-1, by decide, ?_⟩
  rw [flush, if_pos (Int.natCast_nonneg v), h]
  rfl

theorem calculate_end (h : s = front) (hClosed : Closed tokens num after) {back : Token}
    (hBack : after.head? = some back) :
    calculateHelp s (fuel + 1) (behind front) num tokens = some (back.val, behind front) := by
  obtain ⟨m, -, hFlush⟩ := hClosed
  have hNot : ¬behind front < int s.length := by
    rw [← h, behind]
    omega
  rw [calculateHelp, if_neg hNot]
  simp [hFlush, hBack]

section Steps

variable (hShort : s.length < 2 ^ 31)

include hShort

theorem reads {c : Char} (h : s = front ++ c :: tail) :
    behind front < int s.length ∧ charAt s (behind front) = some c := by
  have hLength := congrArg List.length h
  simp only [List.length_append, List.length_cons] at hLength
  have hVisible : visible s = front ++ c :: tail := by rw [visible_of_length_lt hShort, h]
  rw [charAt_behind hVisible, behind_of_lt (by omega), int_of_fits (by omega)]
  exact ⟨by omega, rfl⟩

theorem calculate_close (h : s = front ++ ')' :: tail) {back : Token}
    (hClosed : Closed tokens num [back]) :
    calculateHelp s (fuel + 1) (behind front) num tokens = some (back.val, behind front) := by
  obtain ⟨m, -, hFlush⟩ := hClosed
  obtain ⟨hPos, hChar⟩ := reads hShort h
  rw [calculateHelp, if_pos hPos, hChar]
  simp [hFlush]

theorem calculate_space (h : s = front ++ ' ' :: tail) (hClosed : Closed tokens num after)
    (hRest : ∀ m, m < 0 →
      calculateHelp s fuel (behind (front ++ [' '])) m after = some result) :
    calculateHelp s (fuel + 1) (behind front) num tokens = some result := by
  obtain ⟨m, hNegative, hFlush⟩ := hClosed
  obtain ⟨hPos, hChar⟩ := reads hShort h
  rw [calculateHelp, if_pos hPos, hChar, following_behind front ' ']
  simpa [hFlush] using hRest m hNegative

theorem calculate_sign (sign : Sign) (h : s = front ++ sign.char :: tail)
    (hClosed : Closed tokens num after)
    (hRest : ∀ m, m < 0 → calculateHelp s fuel (behind (front ++ [sign.char])) m
      (Token.ofChar sign.char :: after) = some result) :
    calculateHelp s (fuel + 1) (behind front) num tokens = some result := by
  obtain ⟨m, hNegative, hFlush⟩ := hClosed
  obtain ⟨hPos, hChar⟩ := reads hShort h
  have hSign : sign.char = '+' ∨ sign.char = '-' := by
    cases hMinus : sign.minus <;> simp [Sign.char, hMinus]
  rw [calculateHelp, if_pos hPos, hChar, following_behind front sign.char]
  simpa [hFlush, hSign] using hRest m hNegative

theorem calculate_open (h : s = front ++ '(' :: tail) {v pos : Int}
    (hInner : calculateHelp s fuel (behind (front ++ ['('])) (-1) [] = some (v, pos))
    (hPush : plus_minus tokens v = some after)
    (hRest : calculateHelp s fuel (following pos) (-1) after = some result) :
    calculateHelp s (fuel + 1) (behind front) num tokens = some result := by
  obtain ⟨hPos, hChar⟩ := reads hShort h
  rw [calculateHelp, if_pos hPos, hChar, following_behind front '(']
  simp [hInner, hPush, hRest]

theorem calculate_digit {c : Char} (hc : c.isDigit = true) (h : s = front ++ c :: tail)
    (hRest : calculateHelp s fuel (behind (front ++ [c])) (readDigit (started num) c) tokens =
      some result) :
    calculateHelp s (fuel + 1) (behind front) num tokens = some result := by
  obtain ⟨hPos, hChar⟩ := reads hShort h
  have hNot : ¬(c = '+' ∨ c = '-') ∧ c ≠ '(' ∧ c ≠ ')' ∧ c ≠ ' ' := by
    refine ⟨?_, ?_, ?_, ?_⟩
    · rintro (rfl | rfl) <;> simp at hc
    all_goals
      rintro rfl
      simp at hc
  rw [calculateHelp, if_pos hPos, hChar, following_behind front c]
  simp only [if_neg hNot.1, if_neg hNot.2.1, if_neg hNot.2.2.1, if_neg hNot.2.2.2]
  exact hRest

/-- Spaces in front of an operator or a parenthesis. -/
theorem calculate_spaces (k : Nat) (h : s = front ++ List.replicate k ' ' ++ tail)
    (hClosed : Closed tokens num after)
    (hRest : ∀ tokens num, Closed tokens num after →
      calculateHelp s fuel (behind (front ++ List.replicate k ' ')) num tokens = some result) :
    calculateHelp s (fuel + k) (behind front) num tokens = some result := by
  induction k generalizing front tokens num with
  | zero =>
      rw [List.replicate_zero, List.append_nil] at hRest
      exact hRest tokens num hClosed
  | succ k ih =>
      have hHere : s = front ++ ' ' :: (List.replicate k ' ' ++ tail) := by
        simp [h, List.replicate_succ]
      refine calculate_space hShort hHere hClosed fun m hNegative => ?_
      refine ih (by simp [hHere]) (closed_negative hNegative) fun tokens num hNext => ?_
      have hSame := hRest tokens num hNext
      rwa [List.replicate_succ, ← List.singleton_append, ← List.append_assoc] at hSame

/-- Spaces in front of a number. -/
theorem calculate_spaces_negative (k : Nat) (h : s = front ++ List.replicate k ' ' ++ tail)
    (hNum : num < 0)
    (hRest : ∀ m, m < 0 →
      calculateHelp s fuel (behind (front ++ List.replicate k ' ')) m tokens = some result) :
    calculateHelp s (fuel + k) (behind front) num tokens = some result := by
  induction k generalizing front num with
  | zero =>
      rw [List.replicate_zero, List.append_nil] at hRest
      exact hRest num hNum
  | succ k ih =>
      have hHere : s = front ++ ' ' :: (List.replicate k ' ' ++ tail) := by
        simp [h, List.replicate_succ]
      refine calculate_space hShort hHere (closed_negative hNum) fun m hNegative => ?_
      refine ih (by simp [hHere]) hNegative fun m hNext => ?_
      have hSame := hRest m hNext
      rwa [List.replicate_succ, ← List.singleton_append, ← List.append_assoc] at hSame

theorem calculate_digits {digits : List Char} (hDigits : ∀ c ∈ digits, c.isDigit = true) {v : Nat}
    (hFits : Nat.ofDigitChars 10 digits v < 2 ^ 31) (h : s = front ++ digits ++ tail)
    (hRest : calculateHelp s fuel (behind (front ++ digits)) (Nat.ofDigitChars 10 digits v : Nat)
      tokens = some result) :
    calculateHelp s (fuel + digits.length) (behind front) v tokens = some result := by
  induction digits generalizing front v with
  | nil => simpa using hRest
  | cons c digits ih =>
      rw [Nat.ofDigitChars_cons] at hFits hRest
      have hc := hDigits c List.mem_cons_self
      have hNext : 10 * v + (c.toNat - '0'.toNat) < 2 ^ 31 :=
        Nat.lt_of_le_of_lt (le_ofDigitChars digits _) hFits
      have hHere : s = front ++ c :: (digits ++ tail) := by simp [h]
      have hStarted : started (v : Int) = v := if_neg (by omega)
      refine calculate_digit hShort hc hHere ?_
      rw [hStarted, readDigit_eq hc hNext]
      refine ih (fun d hd => hDigits d (List.mem_cons_of_mem _ hd)) hFits (by simp [h]) ?_
      simpa using hRest

theorem calculate_literal (l : Literal) (hFits : l.value < 2 ^ 31) (h : s = front ++ l.text ++ tail)
    (hNum : num < 0)
    (hRest : calculateHelp s fuel (behind (front ++ l.text)) l.value tokens = some result) :
    calculateHelp s (fuel + l.text.length) (behind front) num tokens = some result := by
  obtain ⟨c, digits, hCons⟩ := List.exists_cons_of_ne_nil l.ne_nil
  have hDigits := l.isDigit
  have hLength : fuel + l.text.length = fuel + digits.length + 1 + l.spaces := by
    simp [Literal.text, hCons]
    omega
  rw [Literal.value, hCons, Nat.ofDigitChars_cons] at hFits hRest
  rw [hCons] at hDigits
  have hc := hDigits c List.mem_cons_self
  have hNext : 10 * 0 + (c.toNat - '0'.toNat) < 2 ^ 31 :=
    Nat.lt_of_le_of_lt (le_ofDigitChars digits _) hFits
  have hFirst : readDigit 0 c = (10 * 0 + (c.toNat - '0'.toNat) : Nat) := readDigit_eq hc hNext
  have hSpaces : s = front ++ List.replicate l.spaces ' ' ++ (c :: digits ++ tail) := by
    simp [h, Literal.text, hCons]
  have hHere : s = (front ++ List.replicate l.spaces ' ') ++ c :: (digits ++ tail) := by
    simp [h, Literal.text, hCons]
  have hTail : s = (front ++ List.replicate l.spaces ' ' ++ [c]) ++ digits ++ tail := by
    simp [h, Literal.text, hCons]
  rw [hLength]
  refine calculate_spaces_negative hShort l.spaces hSpaces hNum fun m hNegative => ?_
  have hStarted : started m = 0 := if_pos hNegative
  refine calculate_digit hShort hc hHere ?_
  rw [hStarted, hFirst]
  refine calculate_digits hShort (fun d hd => hDigits d (List.mem_cons_of_mem _ hd)) hFits hTail ?_
  simpa [Literal.text, hCons] using hRest

end Steps

theorem plus_minus_sign (sign : Sign) (x y : Int) :
    plus_minus [Token.ofChar sign.char, Token.ofInt x] y =
      some [Token.ofInt (int (sign.apply x y))] := by
  cases hMinus : sign.minus with
  | true =>
      have hNot : (Token.ofChar '-').val ≠ '+'.toNat := by decide
      have hSame : (Token.ofChar '-').val = '-'.toNat := rfl
      simp only [Sign.char, Sign.apply, hMinus, if_true]
      rw [plus_minus, if_neg hNot, if_pos hSame]
      rfl
  | false =>
      have hSame : (Token.ofChar '+').val = '+'.toNat := rfl
      simp only [Sign.char, Sign.apply, hMinus]
      rw [plus_minus, if_neg Bool.false_ne_true, if_neg Bool.false_ne_true, if_pos hSame,
        Int.add_comm]
      rfl

/-- The call behind an opening parenthesis ends at the closing one, if it reads the sum. -/
theorem calculate_group (hShort : s.length < 2 ^ 31) {inner : List Char} {v : Int} (closing : Nat)
    (h : s = front ++ inner ++ List.replicate closing ' ' ++ ')' :: tail)
    (hSum : ∀ result, (∀ tokens num, Closed tokens num [Token.ofInt v] →
        calculateHelp s (1 + closing) (behind (front ++ inner)) num tokens = some result) →
      calculateHelp s (1 + closing + inner.length) (behind front) (-1) [] = some result) :
    calculateHelp s (1 + closing + inner.length) (behind front) (-1) [] =
      some (v, behind (front ++ inner ++ List.replicate closing ' ')) := by
  refine hSum _ fun tokens num hClosed => ?_
  refine calculate_spaces hShort closing h hClosed fun tokens num hClosed => ?_
  exact calculate_close hShort h hClosed

mutual

/-- An operand is added to what is in front of it. -/
theorem calculate_operand (hShort : s.length < 2 ^ 31) (o : Operand) {v : Int}
    (hValue : o.value = some v) {front tail : List Char} {fuel : Nat} {num : Int}
    {tokens after : List Token} {result : Int × Int} (h : s = front ++ o.text ++ tail)
    (hNum : num < 0) (hPush : plus_minus tokens v = some after)
    (hRest : ∀ tokens num, Closed tokens num after →
      calculateHelp s fuel (behind (front ++ o.text)) num tokens = some result) :
    calculateHelp s (fuel + o.text.length) (behind front) num tokens = some result := by
  cases o with
  | number l =>
      obtain ⟨hEq, -, hFits⟩ := checked_eq_some hValue
      rw [← hEq] at hPush
      exact calculate_literal hShort l (by omega) h hNum (hRest _ _ (closed_number hPush))
  | group spaces e closing =>
      have hSpaces : s = front ++ List.replicate spaces ' ' ++
          ('(' :: (e.text ++ List.replicate closing ' ' ++ ')' :: tail)) := by
        simp [h, Operand.text]
      have hOpen : s = (front ++ List.replicate spaces ' ') ++
          '(' :: (e.text ++ List.replicate closing ' ' ++ ')' :: tail) := by
        simp [h, Operand.text]
      have hInner : s = (front ++ List.replicate spaces ' ' ++ ['(']) ++ e.text ++
          List.replicate closing ' ' ++ ')' :: tail := by
        simp [h, Operand.text]
      have hSum : s = (front ++ List.replicate spaces ' ' ++ ['(']) ++ e.text ++
          (List.replicate closing ' ' ++ ')' :: tail) := by
        simp [h, Operand.text]
      have hCall := calculate_group hShort closing hInner
        (fun result hNext => calculate_sum hShort e hValue hSum hNext)
      have hBehind : front ++ List.replicate spaces ' ' ++ ['('] ++ e.text ++
          List.replicate closing ' ' ++ [')'] = front ++ (Operand.group spaces e closing).text := by
        simp [Operand.text]
      have hLength : fuel + (Operand.group spaces e closing).text.length =
          fuel + e.text.length + closing + 1 + 1 + spaces := by
        simp [Operand.text]
        omega
      have hNext := hRest after (-1) (closed_negative (by decide))
      rw [← hBehind] at hNext
      rw [hLength]
      refine calculate_spaces_negative hShort spaces hSpaces hNum fun m hNegative => ?_
      refine calculate_open hShort hOpen (calculateHelp_of_le hCall (by omega)) hPush ?_
      rw [following_behind _ ')']
      exact calculateHelp_of_le hNext (by omega)

/-- A sum leaves its value as the only token. -/
theorem calculate_sum (hShort : s.length < 2 ^ 31) (e : Sum) {v : Int}
    (hValue : e.value = some v) {front tail : List Char} {fuel : Nat} {result : Int × Int}
    (h : s = front ++ e.text ++ tail)
    (hRest : ∀ tokens num, Closed tokens num [Token.ofInt v] →
      calculateHelp s fuel (behind (front ++ e.text)) num tokens = some result) :
    calculateHelp s (fuel + e.text.length) (behind front) (-1) [] = some result := by
  cases e with
  | operand o => exact calculate_operand hShort o hValue h (by decide) rfl hRest
  | more left sign o =>
      simp only [Sum.value, Option.bind_eq_bind, Option.bind_eq_some_iff] at hValue
      obtain ⟨x, hLeft, y, hy, hValue⟩ := hValue
      obtain ⟨rfl, hBounds⟩ := checked_eq_some hValue
      have hLeftText : s = front ++ left.text ++ (sign.text ++ o.text ++ tail) := by
        simp [h, Sum.text]
      have hSpaces : s = (front ++ left.text) ++ List.replicate sign.spaces ' ' ++
          (sign.char :: (o.text ++ tail)) := by
        simp [h, Sum.text, Sign.text]
      have hSign : s = (front ++ left.text ++ List.replicate sign.spaces ' ') ++
          sign.char :: (o.text ++ tail) := by
        simp [h, Sum.text, Sign.text]
      have hOperand : s = (front ++ left.text ++ List.replicate sign.spaces ' ' ++ [sign.char]) ++
          o.text ++ tail := by
        simp [h, Sum.text, Sign.text]
      have hBehind : front ++ left.text ++ List.replicate sign.spaces ' ' ++ [sign.char] ++ o.text =
          front ++ (Sum.more left sign o).text := by
        simp [Sum.text, Sign.text]
      have hLength : fuel + (Sum.more left sign o).text.length =
          fuel + o.text.length + 1 + sign.spaces + left.text.length := by
        simp [Sum.text, Sign.text]
        omega
      have hPush := plus_minus_sign sign x y
      rw [int_of_fits hBounds] at hPush
      rw [← hBehind] at hRest
      rw [hLength]
      refine calculate_sum hShort left hLeft hLeftText fun tokens num hClosed => ?_
      refine calculate_spaces hShort sign.spaces hSpaces hClosed fun tokens num hClosed => ?_
      refine calculate_sign hShort sign hSign hClosed fun m hNegative => ?_
      exact calculate_operand hShort o hy hOperand hNegative hPush hRest

end

/-- In a string of fewer than `2 ^ 31` characters: the value, the position behind the
expression and the spaces that follow, and the end of the call behind a parenthesis. No
`assert` fails. -/
theorem calculate_sum_eq (e : Sum) (spaces : Nat) {v : Int} (hValue : e.value = some v)
    (hShort : (e.text ++ List.replicate spaces ' ').length < 2 ^ 31) (extra : Nat) :
    calculate ((e.text ++ List.replicate spaces ' ').length + 1 + extra)
        (e.text ++ List.replicate spaces ' ') =
      some (v, ((e.text ++ List.replicate spaces ' ').length : Int)) ∧
    ∀ (front : List Char) (inner : Sum) (closing : Nat) (tail : List Char) (w : Int),
      e.text ++ List.replicate spaces ' ' =
        front ++ ['('] ++ inner.text ++ List.replicate closing ' ' ++ ')' :: tail →
      inner.value = some w →
      calculateHelp (e.text ++ List.replicate spaces ' ')
          ((e.text ++ List.replicate spaces ' ').length + extra) (front.length + 1) (-1) [] =
        some (w, (front.length : Int) + 1 + inner.text.length + closing) := by
  generalize hText : e.text ++ List.replicate spaces ' ' = s at hShort ⊢
  have hLength := congrArg List.length hText
  rw [List.length_append, List.length_replicate] at hLength
  constructor
  · have hSum : s = [] ++ e.text ++ List.replicate spaces ' ' := by simp [hText]
    have hAll : s = [] ++ e.text ++ List.replicate spaces ' ' ++ [] := by simp [hText]
    have hEnd : behind ([] ++ e.text ++ List.replicate spaces ' ') = s.length := by
      rw [← hSum, behind_of_lt hShort]
    have hRun : calculateHelp s (1 + extra + spaces + e.text.length) (behind []) (-1) [] =
        some (v, (s.length : Int)) := by
      refine calculate_sum hShort e hValue hSum fun tokens num hClosed => ?_
      refine calculate_spaces hShort spaces hAll hClosed fun tokens num hClosed => ?_
      rw [Nat.add_comm, calculate_end hSum hClosed rfl, hEnd]
      rfl
    rw [calculate, ← behind_nil]
    exact calculateHelp_of_le hRun (by omega)
  · intro front inner closing tail w hInner hValue
    have hSum : s = (front ++ ['(']) ++ inner.text ++
        (List.replicate closing ' ' ++ ')' :: tail) := by
      simp [hInner]
    have hCall := calculate_group hShort closing hInner
      (fun result hNext => calculate_sum hShort inner hValue hSum hNext)
    have hLengths := congrArg List.length hInner
    simp only [List.length_append, List.length_cons, List.length_nil, List.length_replicate]
      at hLengths
    have hFront : behind (front ++ ['(']) = front.length + 1 := by
      rw [behind_of_lt (by simp; omega)]
      simp
    have hEnd : behind (front ++ ['('] ++ inner.text ++ List.replicate closing ' ') =
        front.length + 1 + inner.text.length + closing := by
      rw [behind_of_lt (by simp; omega)]
      simp
      omega
    rw [hFront, hEnd] at hCall
    exact calculateHelp_of_le hCall (by omega)

/-- The number 1. -/
def one : Sum := .operand (.number ⟨0, ['1'], by simp, by simp⟩)

theorem calculate_sum_eq_group :
    calculate 7 (Sum.operand (.group 1 one 2)).text = some (1, 6) :=
  (calculate_sum_eq (.operand (.group 1 one 2)) 0 (by decide) (by decide) 0).1

/-- A string of `2 ^ 31` characters has a negative size as an `int`: the loop does not run, and
there is no token to return. -/
theorem not_calculate_sum_eq :
    ¬∀ (e : Sum) (spaces : Nat) (v : Int), e.value = some v →
      ∃ fuel pos, calculate fuel (e.text ++ List.replicate spaces ' ') = some (v, pos) := by
  intro h
  obtain ⟨n, hn⟩ : ∃ n, n + 1 = 2 ^ 31 := ⟨2 ^ 31 - 1, by decide⟩
  obtain ⟨fuel, pos, hRun⟩ := h one n 1 (by decide)
  have hLength : (one.text ++ List.replicate n ' ').length = 2 ^ 31 := by
    rw [List.length_append, List.length_replicate, Nat.add_comm]
    exact hn
  have hNot : ¬(0 : Int) < int (one.text ++ List.replicate n ' ').length := by
    rw [hLength]
    decide
  cases fuel with
  | zero => cases hRun
  | succ fuel =>
      rw [calculate, calculateHelp, if_neg hNot] at hRun
      cases hRun

end Calculator

end CppPerf.Interpreters
