import CppPerf.Text.IntPosition

/-! `parseBoolExpr` of `brace_expression.cpp`. -/
namespace CppPerf.Interpreters

open CppPerf.Text

/-- What is pushed for an operator. The operator `!` reads the first value. -/
def operate (op : Char) (next_group : List Bool) : Option Bool :=
  if op = '&' then some (next_group.all fun x => x)
  else if op = '|' then some (next_group.any fun x => x)
  else next_group.head?.map fun x => !x

/-- The loop from a position, with what it has collected. Another character than those of
the cases is read again and again. -/
def parseBoolExprAt (expression : List Char) :
    (fuel : Nat) → (pos : Int) → (group : List Bool) → Option (List Bool × Int)
  | 0, _, _ => none
  | fuel + 1, pos, group =>
      match charAt expression pos with
      | none => some (group, pos)
      | some c =>
          if c = '&' ∨ c = '|' ∨ c = '!' then do
            let (next_group, pos) ← parseBoolExprAt expression fuel (following pos) []
            let value ← operate c next_group
            parseBoolExprAt expression fuel pos (group ++ [value])
          else if c = '(' ∨ c = ',' then parseBoolExprAt expression fuel (following pos) group
          else if c = ')' then some (group, following pos)
          else if c = 't' then
            parseBoolExprAt expression fuel (following pos) (group ++ [true])
          else if c = 'f' then
            parseBoolExprAt expression fuel (following pos) (group ++ [false])
          else parseBoolExprAt expression fuel pos group

def parseBoolExpr (fuel : Nat) (expression : List Char) : Option Bool := do
  let (x, _) ← parseBoolExprAt expression fuel 0 []
  x.head?

mutual

inductive BoolExpr where
  | t
  | f
  | not (e : BoolExpr)
  | and (args : Args)
  | or (args : Args)

/-- At least one argument. -/
inductive Args where
  | last (e : BoolExpr)
  | more (e : BoolExpr) (rest : Args)

end

mutual

def BoolExpr.text : BoolExpr → List Char
  | .t => ['t']
  | .f => ['f']
  | .not e => '!' :: '(' :: (e.text ++ [')'])
  | .and args => '&' :: '(' :: (args.text ++ [')'])
  | .or args => '|' :: '(' :: (args.text ++ [')'])

def Args.text : Args → List Char
  | .last e => e.text
  | .more e rest => e.text ++ ',' :: rest.text

end

mutual

def BoolExpr.value : BoolExpr → Bool
  | .t => true
  | .f => false
  | .not e => !e.value
  | .and args => args.values.all fun x => x
  | .or args => args.values.any fun x => x

def Args.values : Args → List Bool
  | .last e => [e.value]
  | .more e rest => e.value :: rest.values

end

variable {expression front tail : List Char} {fuel : Nat} {pos : Int} {group : List Bool}
  {result : List Bool × Int}

/-- More fuel does no harm. -/
theorem parseBoolExprAt_add (h : parseBoolExprAt expression fuel pos group = some result)
    (extra : Nat) : parseBoolExprAt expression (fuel + extra) pos group = some result := by
  induction fuel generalizing pos group result with
  | zero => cases h
  | succ fuel ih =>
      rw [Nat.add_right_comm, parseBoolExprAt]
      rw [parseBoolExprAt] at h
      split
      · rename_i hEnd
        rwa [hEnd] at h
      · rename_i c hChar
        simp only [hChar] at h
        split_ifs at h ⊢ with hOp
        · simp only [Option.bind_eq_bind, Option.bind_eq_some_iff] at h ⊢
          obtain ⟨x, hNested, value, hValue, hRest⟩ := h
          exact ⟨x, ih hNested, value, hValue, ih hRest⟩
        · exact ih h
        · exact h
        · exact ih h
        · exact ih h
        · exact ih h

theorem parseBoolExprAt_of_le {more : Nat}
    (h : parseBoolExprAt expression fuel pos group = some result) (hLe : fuel ≤ more) :
    parseBoolExprAt expression more pos group = some result := by
  obtain ⟨extra, rfl⟩ := Nat.exists_eq_add_of_le hLe
  exact parseBoolExprAt_add h extra

end CppPerf.Interpreters

/-! The value of an expression, and what a call of `parseBoolExpr` consumes. -/
namespace CppPerf.Interpreters

open CppPerf.Text

variable {expression front tail : List Char} {fuel : Nat} {group : List Bool}
  {result : List Bool × Int}

section Steps

/-- A letter or a separator is one character. -/
theorem parse_t (h : visible expression = front ++ 't' :: tail)
    (hRest : parseBoolExprAt expression fuel (behind (front ++ ['t'])) (group ++ [true]) =
      some result) :
    parseBoolExprAt expression (fuel + 1) (behind front) group = some result := by
  rw [parseBoolExprAt, charAt_behind h, following_behind front 't']
  simpa using hRest

theorem parse_f (h : visible expression = front ++ 'f' :: tail)
    (hRest : parseBoolExprAt expression fuel (behind (front ++ ['f'])) (group ++ [false]) =
      some result) :
    parseBoolExprAt expression (fuel + 1) (behind front) group = some result := by
  rw [parseBoolExprAt, charAt_behind h, following_behind front 'f']
  simpa using hRest

theorem parse_separator {c : Char} (hc : c = '(' ∨ c = ',')
    (h : visible expression = front ++ c :: tail)
    (hRest : parseBoolExprAt expression fuel (behind (front ++ [c])) group = some result) :
    parseBoolExprAt expression (fuel + 1) (behind front) group = some result := by
  rw [parseBoolExprAt, charAt_behind h, following_behind front c]
  rcases hc with rfl | rfl
  · simpa using hRest
  · simpa using hRest

theorem parse_close (h : visible expression = front ++ ')' :: tail) :
    parseBoolExprAt expression (fuel + 1) (behind front) group =
      some (group, behind (front ++ [')'])) := by
  rw [parseBoolExprAt, charAt_behind h, following_behind front ')']
  rfl

theorem parse_end (h : visible expression = front) :
    parseBoolExprAt expression (fuel + 1) (behind front) group = some (group, behind front) := by
  have hText : visible expression = front ++ [] := by rw [List.append_nil, h]
  have hEnd : charAt expression (behind front) = none := charAt_behind hText
  rw [parseBoolExprAt, hEnd]

/-- An operator: the inner call, and the rest of the loop. -/
theorem parse_operator {op : Char} (hOp : op = '&' ∨ op = '|' ∨ op = '!')
    (h : visible expression = front ++ op :: tail) {values : List Bool} {pos : Int} {value : Bool}
    (hInner : parseBoolExprAt expression fuel (behind (front ++ [op])) [] = some (values, pos))
    (hValue : operate op values = some value)
    (hRest : parseBoolExprAt expression fuel pos (group ++ [value]) = some result) :
    parseBoolExprAt expression (fuel + 1) (behind front) group = some result := by
  rw [parseBoolExprAt, charAt_behind h, following_behind front op]
  simp only [List.head?_cons, if_pos hOp, hInner, Option.bind_eq_bind, Option.bind_some, hValue]
  exact hRest

/-- The call behind an operator, if the arguments are read as these values. -/
theorem parse_list {inner : List Char} {values : List Bool}
    (h : visible expression = front ++ ('(' :: (inner ++ [')'])) ++ tail)
    (hInner : ∀ result,
      parseBoolExprAt expression 1 (behind (front ++ ['('] ++ inner)) values = some result →
      parseBoolExprAt expression (1 + inner.length) (behind (front ++ ['('])) [] = some result) :
    parseBoolExprAt expression (inner.length + 2) (behind front) [] =
      some (values, behind (front ++ ('(' :: (inner ++ [')'])))) := by
  have hOpen : visible expression = front ++ '(' :: (inner ++ ')' :: tail) := by simp [h]
  have hClose : visible expression = (front ++ ['('] ++ inner) ++ ')' :: tail := by simp [h]
  have hEnd := hInner _ (@parse_close _ _ _ 0 _ hClose)
  rw [Nat.add_comm 1] at hEnd
  rw [parse_separator (Or.inl rfl) hOpen hEnd]
  simp

/-- An operator with its arguments. -/
theorem parse_call {op : Char} (hOp : op = '&' ∨ op = '|' ∨ op = '!') {inner : List Char}
    {values : List Bool} {value : Bool}
    (h : visible expression = front ++ (op :: '(' :: (inner ++ [')'])) ++ tail)
    (hInner : ∀ result,
      parseBoolExprAt expression 1 (behind (front ++ [op] ++ ['('] ++ inner)) values =
        some result →
      parseBoolExprAt expression (1 + inner.length) (behind (front ++ [op] ++ ['('])) [] =
        some result)
    (hValue : operate op values = some value)
    (hRest : parseBoolExprAt expression fuel (behind (front ++ op :: '(' :: (inner ++ [')'])))
      (group ++ [value]) = some result) :
    parseBoolExprAt expression (fuel + (op :: '(' :: (inner ++ [')'])).length) (behind front)
      group = some result := by
  have hOpChar : visible expression = front ++ op :: ('(' :: (inner ++ [')']) ++ tail) := by
    simp [h]
  have hList : visible expression = (front ++ [op]) ++ ('(' :: (inner ++ [')'])) ++ tail := by
    simp [h]
  have hLength : fuel + (op :: '(' :: (inner ++ [')'])).length =
      (fuel + inner.length + 2) + 1 := by simp; omega
  have hShape : front ++ [op] ++ ('(' :: (inner ++ [')'])) =
      front ++ op :: '(' :: (inner ++ [')']) := by simp
  have hCall : parseBoolExprAt expression (fuel + inner.length + 2) (behind (front ++ [op])) [] =
      some (values, behind (front ++ op :: '(' :: (inner ++ [')']))) := by
    rw [← hShape]
    exact parseBoolExprAt_of_le (parse_list hList hInner) (by omega)
  have hBehind := @parseBoolExprAt_of_le _ _ _ _ _ (fuel + inner.length + 2) hRest (by omega)
  rw [hLength]
  exact parse_operator hOp hOpChar hCall hValue hBehind

end Steps

mutual

/-- The loop reads an expression and goes on behind it. -/
theorem parse_expr (e : BoolExpr) {front tail : List Char} {fuel : Nat} {group : List Bool}
    {result : List Bool × Int} (h : visible expression = front ++ e.text ++ tail)
    (hRest : parseBoolExprAt expression fuel (behind (front ++ e.text)) (group ++ [e.value]) =
      some result) :
    parseBoolExprAt expression (fuel + e.text.length) (behind front) group = some result := by
  cases e with
  | t =>
      have hText : visible expression = front ++ 't' :: tail := by simpa [BoolExpr.text] using h
      exact parse_t hText hRest
  | f =>
      have hText : visible expression = front ++ 'f' :: tail := by simpa [BoolExpr.text] using h
      exact parse_f hText hRest
  | not e =>
      have hValue : operate '!' [e.value] = some (!e.value) := rfl
      refine parse_call (by simp) h (fun result hNext => ?_) hValue hRest
      have hInner : visible expression = front ++ ['!'] ++ ['('] ++ e.text ++ ')' :: tail := by
        simp [h, BoolExpr.text]
      exact parse_expr e hInner hNext
  | and args =>
      have hValue : operate '&' args.values = some (BoolExpr.and args).value := rfl
      refine parse_call (by simp) h (fun result hNext => ?_) hValue hRest
      have hInner : visible expression = front ++ ['&'] ++ ['('] ++ args.text ++ ')' :: tail := by
        simp [h, BoolExpr.text]
      exact parse_args args hInner hNext
  | or args =>
      have hValue : operate '|' args.values = some (BoolExpr.or args).value := rfl
      refine parse_call (by simp) h (fun result hNext => ?_) hValue hRest
      have hInner : visible expression = front ++ ['|'] ++ ['('] ++ args.text ++ ')' :: tail := by
        simp [h, BoolExpr.text]
      exact parse_args args hInner hNext

theorem parse_args (args : Args) {front tail : List Char} {fuel : Nat} {group : List Bool}
    {result : List Bool × Int} (h : visible expression = front ++ args.text ++ tail)
    (hRest : parseBoolExprAt expression fuel (behind (front ++ args.text))
      (group ++ args.values) = some result) :
    parseBoolExprAt expression (fuel + args.text.length) (behind front) group = some result := by
  cases args with
  | last e => exact parse_expr e h hRest
  | more e rest =>
      have hRestText : visible expression = (front ++ e.text ++ [',']) ++ rest.text ++ tail := by
        simp [h, Args.text]
      have hNext : parseBoolExprAt expression fuel
          (behind (front ++ e.text ++ [','] ++ rest.text)) (group ++ [e.value] ++ rest.values) =
          some result := by
        simpa [Args.text, Args.values] using hRest
      have hArgs := parse_args rest hRestText hNext
      have hComma : visible expression = (front ++ e.text) ++ ',' :: (rest.text ++ tail) := by
        simp [h, Args.text]
      have hExpr := parse_expr e hComma (parse_separator (Or.inr rfl) hComma hArgs)
      have hLength : fuel + (Args.more e rest).text.length =
          fuel + rest.text.length + 1 + e.text.length := by
        simp [Args.text]
        omega
      rw [hLength]
      exact hExpr

end

/-- The call behind an operator reads the list of its arguments with both parentheses. -/
theorem parse_argument_list (args : Args)
    (h : visible expression = front ++ ('(' :: (args.text ++ [')'])) ++ tail) :
    parseBoolExprAt expression (args.text.length + 2) (behind front) [] =
      some (args.values, behind (front ++ ('(' :: (args.text ++ [')'])))) := by
  refine parse_list h fun result hNext => ?_
  have hInner : visible expression = front ++ ['('] ++ args.text ++ ')' :: tail := by simp [h]
  exact parse_args args hInner hNext

/-- In a string of fewer than `2 ^ 31` characters: the value of an expression, and the end of
the call that reads the arguments behind an operator. -/
theorem parseBoolExpr_eq (e : BoolExpr) (hShort : e.text.length < 2 ^ 31) (extra : Nat) :
    parseBoolExpr (e.text.length + 1 + extra) e.text = some e.value ∧
    ∀ (front : List Char) (op : Char) (args : Args) (tail : List Char),
      e.text = front ++ [op] ++ ('(' :: (args.text ++ [')'])) ++ tail →
      parseBoolExprAt e.text (e.text.length + extra) (front.length + 1) [] =
        some (args.values, (front.length : Int) + 1 + (args.text.length + 2)) := by
  have hVisible := visible_of_length_lt hShort
  constructor
  · have hText : visible e.text = [] ++ e.text ++ [] := by simp [hVisible]
    have hEnd : parseBoolExprAt e.text (0 + 1) (behind ([] ++ e.text)) ([] ++ [e.value]) =
        some ([e.value], behind e.text) := parse_end hVisible
    have hRun := parse_expr e hText (parseBoolExprAt_add hEnd extra)
    have hFuel : e.text.length + 1 + extra = 0 + 1 + extra + e.text.length := by omega
    rw [parseBoolExpr, hFuel, ← behind_nil, hRun]
    rfl
  · intro front op args tail hText
    have hList := parse_argument_list args (hVisible.trans hText)
    have hLength := congrArg List.length hText
    simp only [List.length_append, List.length_cons, List.length_nil] at hLength
    have hFront : behind (front ++ [op]) = front.length + 1 := by
      rw [behind_of_lt (by simp; omega)]
      simp
    have hEnd : behind (front ++ [op] ++ ('(' :: (args.text ++ [')']))) =
        front.length + 1 + (args.text.length + 2) := by
      rw [behind_of_lt (by simp; omega)]
      simp
      omega
    rw [hFront, hEnd] at hList
    exact parseBoolExprAt_of_le hList (by omega)

theorem parseBoolExpr_eq_nested :
    parseBoolExpr 17 ['|', '(', '&', '(', 't', ',', 'f', ',', 't', ')', ',', '!', '(', 't', ')',
      ')'] = some false :=
  (parseBoolExpr_eq (.or (.more (.and (.more .t (.more .f (.last .t)))) (.last (.not .t))))
    (by decide) 0).1

section Long

/-- Many times `t`, and `f` at the end. -/
def manyTrue : Nat → Args
  | 0 => .last .f
  | k + 1 => .more .t (manyTrue k)

def pairs (k : Nat) : List Char := (List.replicate k ['t', ',']).flatten

theorem length_pairs (k : Nat) : (pairs k).length = 2 * k := by
  simp [pairs, Nat.mul_comm]

theorem pairs_succ (k : Nat) : pairs (k + 1) = 't' :: ',' :: pairs k := by
  simp [pairs, List.replicate_succ]

theorem pairs_succ' (k : Nat) : pairs (k + 1) = pairs k ++ ['t', ','] := by
  simp [pairs, List.replicate_succ']

theorem text_manyTrue (k : Nat) : (manyTrue k).text = pairs k ++ ['f'] := by
  induction k with
  | zero => rfl
  | succ k ih =>
      rw [manyTrue, Args.text, ih, pairs_succ]
      rfl

theorem value_manyTrue (k : Nat) : (BoolExpr.and (manyTrue k)).value = false := by
  rw [BoolExpr.value]
  induction k with
  | zero => rfl
  | succ k ih => simp [manyTrue, Args.values, ih]

/-- Without a closing parenthesis the call collects values up to the end. -/
theorem parse_pairs (k : Nat) (h : visible expression = front ++ pairs k) :
    parseBoolExprAt expression (2 * k + 1) (behind front) group =
      some (group ++ List.replicate k true, behind (front ++ pairs k)) := by
  induction k generalizing front group with
  | zero =>
      rw [parse_end (h.trans (List.append_nil front))]
      simp [pairs]
  | succ k ih =>
      rw [pairs_succ] at h
      have hRest := @ih (front ++ ['t'] ++ [',']) (group ++ [true]) (by simp [h])
      have hComma : visible expression = (front ++ ['t']) ++ ',' :: pairs k := by simp [h]
      have hFuel : 2 * (k + 1) + 1 = 2 * k + 1 + 1 + 1 := by omega
      rw [hFuel, parse_t h (parse_separator (Or.inr rfl) hComma hRest)]
      simp [pairs_succ, List.replicate_succ]

/-- When an `int` ends just in front of the last `t`. -/
theorem parseBoolExpr_manyTrue {k : Nat} (hk : 2 * k + 2 = 2 ^ 31) :
    parseBoolExpr (2 * k + 3) (BoolExpr.and (manyTrue (k + 1))).text = some true := by
  have hText : (BoolExpr.and (manyTrue (k + 1))).text =
      (['&'] ++ ['('] ++ pairs k) ++ ['t', ',', 'f', ')'] := by
    rw [BoolExpr.text, text_manyTrue, pairs_succ']
    simp
  have hVisible : visible (BoolExpr.and (manyTrue (k + 1))).text = ['&'] ++ ['('] ++ pairs k := by
    rw [hText, visible]
    apply List.take_left'
    rw [← hk, List.length_append, length_pairs, Nat.add_comm]
    rfl
  have hOpen : visible (BoolExpr.and (manyTrue (k + 1))).text = ['&'] ++ '(' :: pairs k := by
    simpa using hVisible
  have hOp : visible (BoolExpr.and (manyTrue (k + 1))).text = [] ++ '&' :: ('(' :: pairs k) := by
    simpa using hVisible
  have hInner := parse_separator (Or.inl rfl) hOpen (@parse_pairs _ _ [] k hVisible)
  have hValue : operate '&' ([] ++ List.replicate k true) = some true := by
    simp [operate]
  have hEnd : parseBoolExprAt (BoolExpr.and (manyTrue (k + 1))).text (2 * k + 1 + 1)
      (behind (['&'] ++ ['('] ++ pairs k)) ([] ++ [true]) = some ([true], _) :=
    parse_end hVisible
  rw [parseBoolExpr, ← behind_nil, parse_operator (by simp) hOp hInner hValue hEnd]
  rfl

/-- In a longer string the last argument may be out of reach. -/
theorem not_parseBoolExpr_eq :
    ¬∀ e : BoolExpr, ∃ fuel, parseBoolExpr fuel e.text = some e.value := by
  intro h
  obtain ⟨k, hk⟩ : ∃ k, 2 * k + 2 = 2 ^ 31 := ⟨2 ^ 30 - 1, by decide⟩
  obtain ⟨fuel, hFalse⟩ := h (.and (manyTrue (k + 1)))
  rw [value_manyTrue] at hFalse
  have hTrue := parseBoolExpr_manyTrue hk
  simp only [parseBoolExpr, Option.bind_eq_bind, Option.bind_eq_some_iff] at hFalse hTrue
  obtain ⟨x, hX, hHeadX⟩ := hFalse
  obtain ⟨y, hY, hHeadY⟩ := hTrue
  have hSame := (parseBoolExprAt_add hX (2 * k + 3)).symm.trans
    (parseBoolExprAt_of_le hY (Nat.le_add_left _ _))
  cases hSame
  exact absurd (hHeadX.symm.trans hHeadY) (by decide)

end Long

end CppPerf.Interpreters
