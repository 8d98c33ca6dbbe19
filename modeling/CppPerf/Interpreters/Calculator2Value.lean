import CppPerf.Interpreters.Calculator

/-! The value that `Calculator2` computes. -/
namespace CppPerf.Interpreters

open CppPerf.Text

namespace Calculator2

variable {tokens : List Token} {s : Scan}

/-- No number is pending. -/
def Scan.clear (tokens : List Token) : Scan := ⟨tokens, false, 0⟩

/-- The tokens are these as soon as a pending number is pushed. -/
def Closed (s : Scan) (tokens : List Token) : Prop := flush s = some (Scan.clear tokens)

theorem closed_clear (tokens : List Token) : Closed (Scan.clear tokens) tokens := rfl

theorem scan_space (h : Closed s tokens) : scan s ' ' = some (Scan.clear tokens) := by
  have hFlush : flush s = some (Scan.clear tokens) := h
  simp [scan, hFlush]

theorem scan_operator (h : Closed s tokens) {c : Char}
    (hc : c = '+' ∨ c = '-' ∨ c = '*' ∨ c = '/') :
    scan s c = some (Scan.clear (Token.ofChar c :: tokens)) := by
  have hFlush : flush s = some (Scan.clear tokens) := h
  rcases hc with rfl | rfl | rfl | rfl <;> simp [scan, hFlush, Scan.clear]

theorem scan_digit {c : Char} (hc : c.isDigit = true) (s : Scan) :
    scan s c = some { s with number := true, num := readDigit s.num c } := by
  have hNot : ¬(c = '+' ∨ c = '-' ∨ c = '*' ∨ c = '/' ∨ c = ' ') := by
    rintro (rfl | rfl | rfl | rfl | rfl) <;> simp at hc
  rw [scan, if_neg hNot]

/-- Spaces push a pending number, and nothing else. -/
theorem scan_spaces (h : Closed s tokens) (k : Nat) :
    ∃ s', (List.replicate k ' ').foldlM scan s = some s' ∧ Closed s' tokens := by
  induction k generalizing s with
  | zero => exact ⟨s, rfl, h⟩
  | succ k ih =>
      rw [List.replicate_succ, List.foldlM_cons, scan_space h]
      exact ih (closed_clear tokens)

theorem scan_spaces_clear (tokens : List Token) (k : Nat) :
    (List.replicate k ' ').foldlM scan (Scan.clear tokens) = some (Scan.clear tokens) := by
  induction k with
  | zero => rfl
  | succ k ih =>
      rw [List.replicate_succ, List.foldlM_cons, scan_space (closed_clear tokens)]
      exact ih

theorem scan_spaces_operator (h : Closed s tokens) (k : Nat) {c : Char}
    (hc : c = '+' ∨ c = '-' ∨ c = '*' ∨ c = '/') :
    (List.replicate k ' ' ++ [c]).foldlM scan s =
      some (Scan.clear (Token.ofChar c :: tokens)) := by
  obtain ⟨s', hSpaces, hClosed⟩ := scan_spaces h k
  rw [List.foldlM_append, hSpaces]
  simp [scan_operator hClosed hc]

/-- The digits of a number that is an `int`. -/
theorem scan_digits {digits : List Char} (hDigits : ∀ c ∈ digits, c.isDigit = true) {v : Nat}
    (hFits : Nat.ofDigitChars 10 digits v < 2 ^ 31) :
    digits.foldlM scan ⟨tokens, true, v⟩ =
      some ⟨tokens, true, (Nat.ofDigitChars 10 digits v : Nat)⟩ := by
  induction digits generalizing v with
  | nil => rfl
  | cons c digits ih =>
      rw [Nat.ofDigitChars_cons] at hFits ⊢
      have hc := hDigits c List.mem_cons_self
      have hNext : 10 * v + (c.toNat - '0'.toNat) < 2 ^ 31 :=
        Nat.lt_of_le_of_lt (le_ofDigitChars digits _) hFits
      rw [List.foldlM_cons, scan_digit hc, readDigit_eq hc hNext]
      exact ih (fun d hd => hDigits d (List.mem_cons_of_mem _ hd)) hFits

theorem scan_literal (l : Literal) (hFits : l.value < 2 ^ 31) :
    l.text.foldlM scan (Scan.clear tokens) = some ⟨tokens, true, l.value⟩ := by
  obtain ⟨c, digits, hCons⟩ := List.exists_cons_of_ne_nil l.ne_nil
  have hDigits := l.isDigit
  rw [Literal.value, hCons, Nat.ofDigitChars_cons] at hFits
  rw [hCons] at hDigits
  have hc := hDigits c List.mem_cons_self
  have hNext : 10 * 0 + (c.toNat - '0'.toNat) < 2 ^ 31 :=
    Nat.lt_of_le_of_lt (le_ofDigitChars digits _) hFits
  have hFirst : readDigit 0 c = (10 * 0 + (c.toNat - '0'.toNat) : Nat) := readDigit_eq hc hNext
  rw [Literal.text, List.foldlM_append, scan_spaces_clear, Option.bind_eq_bind, Option.bind_some,
    Literal.value, hCons, List.foldlM_cons, scan_digit hc, Scan.clear, hFirst,
    Nat.ofDigitChars_cons]
  exact scan_digits (fun d hd => hDigits d (List.mem_cons_of_mem _ hd)) hFits

/-- The tokens in front of a product: none, or a sign behind everything else. -/
def BeforeProduct (tokens : List Token) : Prop :=
  ∀ back rest, tokens = back :: rest → back.val ≠ '*'.toNat ∧ back.val ≠ '/'.toNat

theorem multi_divide_push (h : BeforeProduct tokens) (num : Int) :
    multi_divide tokens num = some (Token.ofInt num :: tokens) := by
  cases tokens with
  | nil => rfl
  | cons back rest =>
      obtain ⟨hTimes, hDivides⟩ := h back rest rfl
      rw [multi_divide.eq_def]
      simp only [if_neg hTimes, if_neg hDivides]

theorem multi_divide_over {x y : Int} (hZero : y ≠ 0) (hMinus : y ≠ -1) :
    multi_divide (Token.ofChar '/' :: Token.ofInt x :: tokens) y =
      some (Token.ofInt (x.tdiv y) :: tokens) := by
  have hDivide : divide x y = some (x.tdiv y) := if_neg (by omega)
  have hSlash : (Token.ofChar '/').val ≠ '*'.toNat := by decide
  have hSame : (Token.ofChar '/').val = '/'.toNat := rfl
  rw [multi_divide, if_neg hSlash, if_pos hSame]
  simp [Token.ofInt, hDivide]

/-- A product leaves its value in front of the other tokens. -/
theorem scan_product {p : Product} {v : Int} (hValue : p.value = some v)
    (hTokens : BeforeProduct tokens) :
    ∃ s, p.text.foldlM scan (Scan.clear tokens) = some s ∧
      Closed s (Token.ofInt v :: tokens) := by
  induction p generalizing v with
  | number l =>
      obtain ⟨hEq, -, hFits⟩ := checked_eq_some hValue
      refine ⟨_, scan_literal l (by omega), ?_⟩
      simp [Closed, flush, multi_divide_push hTokens, hEq, Scan.clear]
  | more left f l ih =>
      simp only [Product.value, Option.bind_eq_bind, Option.bind_eq_some_iff] at hValue
      obtain ⟨x, hLeft, y, hy, hValue⟩ := hValue
      obtain ⟨hEq, hLow, hFits⟩ := checked_eq_some hy
      subst hEq
      obtain ⟨s, hScan, hClosed⟩ := ih hLeft
      have hOperator : f.char = '+' ∨ f.char = '-' ∨ f.char = '*' ∨ f.char = '/' := by
        cases hDivides : f.divides <;> simp [Factor.char, hDivides]
      have hOp := scan_spaces_operator hClosed f.spaces hOperator
      refine ⟨⟨Token.ofChar f.char :: Token.ofInt x :: tokens, true, l.value⟩, ?_, ?_⟩
      · rw [Product.text, List.foldlM_append, List.foldlM_append, hScan]
        simp only [Option.bind_eq_bind, Option.bind_some, Factor.text, hOp]
        exact scan_literal l (by omega)
      · cases hDivides : f.divides with
        | true =>
            rw [hDivides, if_pos rfl] at hValue
            split_ifs at hValue with hZero
            obtain ⟨rfl, -⟩ := checked_eq_some hValue
            simp [Closed, flush, Factor.char, hDivides, Scan.clear,
              multi_divide_over hZero (by omega : (l.value : Int) ≠ -1)]
        | false =>
            rw [hDivides, if_neg Bool.false_ne_true] at hValue
            obtain ⟨rfl, hBounds⟩ := checked_eq_some hValue
            simp [Closed, flush, Factor.char, hDivides, Scan.clear, multi_divide,
              Token.ofChar, Token.ofInt, Int.mul_comm, int_of_fits hBounds]

/-- The tokens of a sum, from the back, and what the last loop makes of them. -/
inductive Adds : List Token → Int → Prop where
  | first (v : Int) : Adds [Token.ofInt v] v
  | more {tokens : List Token} {a : Int} (h : Adds tokens a) (s : Sign) (v : Int) :
      Adds (Token.ofInt v :: Token.ofChar s.char :: tokens) (int (s.apply a v))

theorem Adds.addAll_eq {a : Int} (h : Adds tokens a) :
    ∃ front rest, tokens.reverse = front :: rest ∧
      ∀ others, addAll front.val (rest ++ others) = addAll a others := by
  induction h with
  | first v => exact ⟨Token.ofInt v, [], rfl, fun _ => rfl⟩
  | @more tokens a h s v ih =>
      obtain ⟨front, rest, hReverse, hAll⟩ := ih
      refine ⟨front, rest ++ [Token.ofChar s.char, Token.ofInt v], by simp [hReverse],
        fun others => ?_⟩
      rw [List.append_assoc, hAll]
      cases hMinus : s.minus with
      | true =>
          have hNot : (Token.ofChar '-').val ≠ '+'.toNat := by decide
          simp only [Sign.char, Sign.apply, hMinus, if_true, List.cons_append, List.nil_append]
          have hSame : (Token.ofChar '-').val = '-'.toNat := rfl
          rw [addAll, if_neg hNot, if_pos hSame]
          rfl
      | false =>
          simp only [Sign.char, Sign.apply, hMinus, List.cons_append, List.nil_append]
          rw [addAll]
          rfl

theorem beforeProduct_nil : BeforeProduct [] := by
  intro back rest h
  cases h

theorem beforeProduct_sign (s : Sign) : BeforeProduct (Token.ofChar s.char :: tokens) := by
  intro back rest hEq
  obtain ⟨rfl, -⟩ := List.cons.inj hEq
  cases hMinus : s.minus <;> simp [Sign.char, hMinus, Token.ofChar]

theorem scan_sum {e : Sum} {v : Int} (hValue : e.value = some v) :
    ∃ s tokens, e.text.foldlM scan (Scan.clear []) = some s ∧ Closed s tokens ∧
      Adds tokens v := by
  induction e generalizing v with
  | product p =>
      obtain ⟨s, hScan, hClosed⟩ := scan_product hValue beforeProduct_nil
      exact ⟨s, _, hScan, hClosed, Adds.first v⟩
  | more left sign p ih =>
      simp only [Sum.value, Option.bind_eq_bind, Option.bind_eq_some_iff] at hValue
      obtain ⟨x, hLeft, y, hy, hValue⟩ := hValue
      obtain ⟨rfl, hBounds⟩ := checked_eq_some hValue
      obtain ⟨s, tokens, hScan, hClosed, hAdds⟩ := ih hLeft
      have hOperator : sign.char = '+' ∨ sign.char = '-' ∨ sign.char = '*' ∨ sign.char = '/' := by
        cases hMinus : sign.minus <;> simp [Sign.char, hMinus]
      have hOp := scan_spaces_operator hClosed sign.spaces hOperator
      obtain ⟨s', hProduct, hClosed'⟩ := scan_product hy (beforeProduct_sign sign)
      refine ⟨s', _, ?_, hClosed', ?_⟩
      · rw [Sum.text, List.foldlM_append, List.foldlM_append, hScan]
        simp only [Option.bind_eq_bind, Option.bind_some, Sign.text, hOp]
        exact hProduct
      · have hMore := hAdds.more sign y
        rwa [int_of_fits hBounds] at hMore

/-- With any number of spaces, behind the expression as well. -/
theorem calculate_eq_value (e : Sum) (spaces : Nat) {v : Int} (hValue : e.value = some v) :
    calculate (e.text ++ List.replicate spaces ' ') = some v := by
  obtain ⟨s, tokens, hScan, hClosed, hAdds⟩ := scan_sum hValue
  obtain ⟨s', hSpaces, hClosed'⟩ := scan_spaces hClosed spaces
  obtain ⟨front, rest, hReverse, hAll⟩ := hAdds.addAll_eq
  have hFlush : flush s' = some (Scan.clear tokens) := hClosed'
  have hEnd : addAll front.val rest = some v := by
    have hNone := hAll []
    rwa [List.append_nil] at hNone
  have hRun : (e.text ++ List.replicate spaces ' ').foldlM scan {} = some s' := by
    rw [List.foldlM_append]
    exact (congrArg (fun o => o.bind fun s => (List.replicate spaces ' ').foldlM scan s)
      hScan).trans hSpaces
  rw [calculate, hRun]
  simp only [Option.bind_eq_bind, Option.bind_some, hFlush, Scan.clear, hReverse, hEnd]

theorem calculate_eq_value_mixed :
    calculate ((Sum.more (.product (.number ⟨1, ['3'], by simp, by simp⟩)) ⟨0, true⟩
      (.more (.number ⟨0, ['5'], by simp, by simp⟩) ⟨1, true⟩
        ⟨1, ['2'], by simp, by simp⟩)).text ++ List.replicate 1 ' ') = some 1 :=
  calculate_eq_value _ 1 (by decide)

end Calculator2

end CppPerf.Interpreters
