import CppPerf.Semantics.Run
import CppPerf.Text.Parsing

/-! The stack machine of `jumpTrading.cpp`. Its words are 32 bits wide and
unsigned; the check that they are below `2 ^ 20` comes after the arithmetic. -/
namespace CppPerf.Interpreters

open CppPerf.Text

/-- The back of the vector comes first. -/
structure WordMachine where
  numbers : List UInt32 := []

namespace WordMachine

def range_check (x : UInt32) : Bool := x < (1 : UInt32) <<< (20 : UInt32)

def pop (m : WordMachine) : WordMachine × Bool :=
  match m.numbers with
  | [] => (m, false)
  | _ :: rest => (⟨rest⟩, true)

def push (m : WordMachine) (x : UInt32) : WordMachine × Bool :=
  if !range_check x then (m, false) else (⟨x :: m.numbers⟩, true)

def dup (m : WordMachine) : WordMachine × Bool :=
  match m.numbers with
  | [] => (m, false)
  | x :: rest => (⟨x :: x :: rest⟩, true)

def add (m : WordMachine) : WordMachine × Bool :=
  match m.numbers with
  | x :: y :: rest => (⟨(y + x) :: rest⟩, range_check (y + x))
  | _ => (m, false)

def subtract (m : WordMachine) : WordMachine × Bool :=
  match m.numbers with
  | x :: y :: rest => (⟨(x - y) :: rest⟩, range_check (x - y))
  | _ => (m, false)

def top (m : WordMachine) : Int :=
  match m.numbers with
  | [] => -1
  | x :: _ => x.toInt32.toInt

end WordMachine

/-- One token of `solution2`; `none` is an exception of `stoi`. -/
def execute (machine : WordMachine) (t : List Char) : Option (WordMachine × Bool) :=
  if t = ['P', 'O', 'P'] then some machine.pop
  else if t = ['D', 'U', 'P'] then some machine.dup
  else if t = ['+'] then some machine.add
  else if t = ['-'] then some machine.subtract
  else (stoi t).map fun x => machine.push (UInt32.ofInt x)

/-- The loop of `solution2`. -/
def executeAll (machine : WordMachine) : List (List Char) → Option Int
  | [] => some machine.top
  | t :: rest =>
      match execute machine t with
      | none => none
      | some (machine, ok) => if !ok then some (-1) else executeAll machine rest

def solution2 (S : List Char) : Option Int := executeAll {} (get_tokens S ' ')

open Transition in
/-- The machine goes on as long as no token fails. -/
def advance : Step WordMachine (List Char) := fun machine t =>
  (execute machine t).bind fun (machine, ok) => if ok then some machine else none

/-! The machine against a reference evaluator over the integers. -/

open Transition

inductive Instr where
  | number (n : Nat)
  | POP
  | DUP
  | plus
  | minus

/-- The texts of an instruction. -/
def Spells (text : List Char) : Instr → Prop
  | .number n => text ≠ [] ∧ (∀ c ∈ text, c.isDigit = true) ∧ Nat.ofDigitChars 10 text 0 = n ∧
      n < 2 ^ 31
  | .POP => text = ['P', 'O', 'P']
  | .DUP => text = ['D', 'U', 'P']
  | .plus => text = ['+']
  | .minus => text = ['-']

/-- Only numbers from 0 to below `2 ^ 20` can be pushed. -/
def pushed (n : Int) (stack : List Int) : Option (List Int) :=
  if 0 ≤ n ∧ n < 2 ^ 20 then some (n :: stack) else none

def evaluate (stack : List Int) : Instr → Option (List Int)
  | .number n => pushed n stack
  | .POP =>
      match stack with
      | [] => none
      | _ :: rest => some rest
  | .DUP =>
      match stack with
      | [] => none
      | x :: rest => some (x :: x :: rest)
  | .plus =>
      match stack with
      | x :: y :: rest => pushed (y + x) rest
      | _ => none
  | .minus =>
      match stack with
      | x :: y :: rest => pushed (x - y) rest
      | _ => none

/-- The top of the stack at the end, or `-1`. -/
def reference (stack : List Int) : List Instr → Int
  | [] => stack.headD (-1)
  | i :: rest =>
      match evaluate stack i with
      | none => -1
      | some stack => reference stack rest

/-- The words of the machine are the numbers of the evaluator. -/
structure Represents (machine : WordMachine) (stack : List Int) : Prop where
  stack_eq : stack = machine.numbers.map fun x => (x.toNat : Int)
  bounded : ∀ x ∈ machine.numbers, x.toNat < 2 ^ 20

/-- The machine and the evaluator fail together or go on together. -/
inductive Agrees : WordMachine × Bool → Option (List Int) → Prop where
  | failed (machine : WordMachine) : Agrees (machine, false) none
  | advanced {machine : WordMachine} {stack : List Int} (h : Represents machine stack) :
      Agrees (machine, true) (some stack)

theorem range_check_iff (x : UInt32) : WordMachine.range_check x = true ↔ x.toNat < 2 ^ 20 := by
  rw [WordMachine.range_check, decide_eq_true_eq, UInt32.lt_iff_toNat_lt]
  rfl

variable {machine : WordMachine} {stack : List Int}

/-- A word whose value wraps around is out of range. -/
theorem agrees_pushed {rest : List UInt32} {x : UInt32} {n : Int}
    (hRest : ∀ y ∈ rest, y.toNat < 2 ^ 20)
    (hWord : (0 ≤ n ∧ n < 2 ^ 20 ∧ (x.toNat : Int) = n) ∨
      ((n < 0 ∨ 2 ^ 20 ≤ n) ∧ 2 ^ 20 ≤ x.toNat)) :
    Agrees (⟨x :: rest⟩, WordMachine.range_check x)
      (pushed n (rest.map fun y => (y.toNat : Int))) := by
  have hCheck := range_check_iff x
  rcases hWord with ⟨hPos, hLt, hEq⟩ | ⟨hOut, hLarge⟩
  · have hSmall : x.toNat < 2 ^ 20 := by omega
    rw [pushed, if_pos ⟨hPos, hLt⟩, hCheck.mpr hSmall]
    refine Agrees.advanced ⟨by rw [List.map_cons, hEq], ?_⟩
    intro y hy
    rcases List.mem_cons.mp hy with rfl | hy
    · exact hSmall
    · exact hRest y hy
  · have hFail : WordMachine.range_check x = false := by
      rw [Bool.eq_false_iff, ne_eq, hCheck]
      omega
    rw [pushed, if_neg (by omega), hFail]
    exact Agrees.failed _

theorem agrees_push (h : Represents machine stack) {n : Nat} (hn : n < 2 ^ 31) :
    Agrees (machine.push (UInt32.ofInt n)) (evaluate stack (.number n)) := by
  obtain ⟨hStack, hBounded⟩ := h
  subst hStack
  have hWord : (UInt32.ofInt (n : Int)).toNat = n := by
    rw [UInt32.ofInt, UInt32.toNat_ofNat']
    omega
  have hPushed := agrees_pushed (x := UInt32.ofInt n) (n := n) hBounded (by omega)
  have hCheck := range_check_iff (UInt32.ofInt n)
  rw [WordMachine.push, evaluate]
  cases hRange : WordMachine.range_check (UInt32.ofInt n) with
  | true =>
      rw [hRange] at hPushed
      exact hPushed
  | false =>
      rw [hRange, hWord] at hCheck
      have hLarge : ¬n < 2 ^ 20 := by simpa using hCheck
      have hNone : pushed (n : Int) (machine.numbers.map fun x => (x.toNat : Int)) = none :=
        if_neg (by omega)
      rw [hNone]
      exact Agrees.failed machine

theorem agrees_pop (h : Represents machine stack) :
    Agrees machine.pop (evaluate stack .POP) := by
  obtain ⟨hStack, hBounded⟩ := h
  obtain ⟨numbers⟩ := machine
  subst hStack
  cases numbers with
  | nil => exact Agrees.failed _
  | cons x rest => exact Agrees.advanced ⟨rfl, fun y hy => hBounded y (List.mem_cons_of_mem x hy)⟩

theorem agrees_dup (h : Represents machine stack) :
    Agrees machine.dup (evaluate stack .DUP) := by
  obtain ⟨hStack, hBounded⟩ := h
  obtain ⟨numbers⟩ := machine
  subst hStack
  cases numbers with
  | nil => exact Agrees.failed _
  | cons x rest =>
      refine Agrees.advanced ⟨rfl, ?_⟩
      intro y hy
      rcases List.mem_cons.mp hy with rfl | hy
      · exact hBounded y (by simp)
      · exact hBounded y hy

theorem agrees_add (h : Represents machine stack) :
    Agrees machine.add (evaluate stack .plus) := by
  obtain ⟨hStack, hBounded⟩ := h
  obtain ⟨numbers⟩ := machine
  subst hStack
  rcases numbers with _ | ⟨x, _ | ⟨y, rest⟩⟩
  · exact Agrees.failed _
  · exact Agrees.failed _
  · have hx := hBounded x (by simp)
    have hy := hBounded y (by simp)
    have hSum : (y + x).toNat = y.toNat + x.toNat := by
      rw [UInt32.toNat_add]
      omega
    have hRest : ∀ z ∈ rest, z.toNat < 2 ^ 20 := fun z hz => hBounded z (by simp [hz])
    simp only [WordMachine.add, List.map_cons, evaluate]
    exact agrees_pushed hRest (by omega)

/-- The operands come in the reversed order: the top first. -/
theorem agrees_subtract (h : Represents machine stack) :
    Agrees machine.subtract (evaluate stack .minus) := by
  obtain ⟨hStack, hBounded⟩ := h
  obtain ⟨numbers⟩ := machine
  subst hStack
  rcases numbers with _ | ⟨x, _ | ⟨y, rest⟩⟩
  · exact Agrees.failed _
  · exact Agrees.failed _
  · have hx := hBounded x (by simp)
    have hy := hBounded y (by simp)
    have hDifference : (x - y).toNat = (2 ^ 32 - y.toNat + x.toNat) % 2 ^ 32 := UInt32.toNat_sub x y
    have hRest : ∀ z ∈ rest, z.toNat < 2 ^ 20 := fun z hz => hBounded z (by simp [hz])
    simp only [WordMachine.subtract, List.map_cons, evaluate]
    exact agrees_pushed hRest (by omega)

/-- A number is not mistaken for another instruction. -/
theorem execute_number (machine : WordMachine) {text : List Char} {n : Nat}
    (h : Spells text (.number n)) :
    execute machine text = some (machine.push (UInt32.ofInt n)) := by
  obtain ⟨hNil, hDigits, rfl, hSmall⟩ := h
  have hOther : ∀ c rest, c.isDigit = false → text ≠ c :: rest := by
    rintro c rest hc rfl
    have hTrue := hDigits c (by simp)
    rw [hc] at hTrue
    cases hTrue
  have hPop := hOther 'P' ['O', 'P'] rfl
  have hDup := hOther 'D' ['U', 'P'] rfl
  have hPlus := hOther '+' [] rfl
  have hMinus := hOther '-' [] rfl
  rw [execute, if_neg hPop, if_neg hDup, if_neg hPlus, if_neg hMinus,
    stoi_digits hNil hDigits hSmall, Option.map_some]

theorem execute_agrees {text : List Char} {i : Instr} (h : Represents machine stack)
    (hText : Spells text i) :
    ∃ result, execute machine text = some result ∧ Agrees result (evaluate stack i) := by
  cases i with
  | number n => exact ⟨_, execute_number machine hText, agrees_push h hText.2.2.2⟩
  | POP =>
      obtain rfl := hText
      exact ⟨_, rfl, agrees_pop h⟩
  | DUP =>
      obtain rfl := hText
      exact ⟨_, rfl, agrees_dup h⟩
  | plus =>
      obtain rfl := hText
      exact ⟨_, rfl, agrees_add h⟩
  | minus =>
      obtain rfl := hText
      exact ⟨_, rfl, agrees_subtract h⟩

/-- Words in range are not negative as an `int`. -/
theorem top_eq (h : Represents machine stack) : machine.top = stack.headD (-1) := by
  obtain ⟨hStack, hBounded⟩ := h
  obtain ⟨numbers⟩ := machine
  subst hStack
  cases numbers with
  | nil => rfl
  | cons x rest =>
      have hx := hBounded x (by simp)
      have hInt : x.toInt32.toInt = (x.toNat : Int) := by
        rw [← UInt32.ofNat_toNat (x := x), UInt32.toInt32_ofNat', UInt32.ofNat_toNat]
        exact Int32.toInt_ofNat_of_lt (by omega)
      exact hInt

theorem executeAll_eq {words : List (List Char)} {program : List Instr}
    (h : Represents machine stack) (hWords : List.Forall₂ Spells words program) :
    executeAll machine words = some (reference stack program) := by
  induction hWords generalizing machine stack with
  | nil => rw [executeAll, top_eq h, reference]
  | cons hText _ ih =>
      obtain ⟨result, hExecute, hAgrees⟩ := execute_agrees h hText
      rw [executeAll, hExecute, reference]
      generalize evaluate stack _ = next at hAgrees ⊢
      cases hAgrees with
      | failed machine => rfl
      | advanced hNext => exact ih hNext

/-- The words stay in range as long as no token fails. -/
theorem always_bounded {words : List (List Char)} {program : List Instr}
    (h : Represents machine stack) (hWords : List.Forall₂ Spells words program) :
    Always advance (fun m => ∀ x ∈ m.numbers, x.toNat < 2 ^ 20) machine words := by
  induction hWords generalizing machine stack with
  | nil => exact h.bounded
  | cons hText _ ih =>
      refine ⟨h.bounded, ?_⟩
      intro next hNext
      obtain ⟨result, hExecute, hAgrees⟩ := execute_agrees h hText
      rw [advance, hExecute, Option.bind_some] at hNext
      generalize evaluate stack _ = value at hAgrees
      cases hAgrees with
      | failed machine => cases hNext
      | advanced hValue =>
          obtain rfl := Option.some.inj hNext
          exact ih hValue

theorem Spells.no_space {text : List Char} {i : Instr} (h : Spells text i) :
    text ≠ [] ∧ ' ' ∉ text := by
  cases i with
  | number n =>
      obtain ⟨hNil, hDigits, _⟩ := h
      refine ⟨hNil, ?_⟩
      intro hSpace
      have hDigit := hDigits ' ' hSpace
      simp at hDigit
  | POP =>
      obtain rfl := h
      decide
  | DUP =>
      obtain rfl := h
      decide
  | plus =>
      obtain rfl := h
      decide
  | minus =>
      obtain rfl := h
      decide

/-- `solution2` returns what the reference evaluator returns, and no word is out
of range before a failure. -/
theorem solution2_eq_reference {words : List (List Char)} {program : List Instr}
    (hWords : List.Forall₂ Spells words program) :
    solution2 ([' '].intercalate words) = some (reference [] program) ∧
      Always advance (fun m => ∀ x ∈ m.numbers, x.toNat < 2 ^ 20) {}
        (get_tokens ([' '].intercalate words) ' ') := by
  have hTokens : get_tokens ([' '].intercalate words) ' ' = words := by
    apply get_tokens_intercalate
    induction hWords with
    | nil => simp
    | cons hText _ ih =>
        intro w hw
        rcases List.mem_cons.mp hw with rfl | hw
        · exact hText.no_space
        · exact ih w hw
  have hStart : Represents {} [] := ⟨rfl, by simp⟩
  rw [solution2, hTokens]
  exact ⟨executeAll_eq hStart hWords, always_bounded hStart hWords⟩

/-- The program `7 DUP -`. -/
theorem solution2_eq_reference_zero :
    solution2 ([' '].intercalate [['7'], ['D', 'U', 'P'], ['-']]) =
        some (reference [] [.number 7, .DUP, .minus]) ∧
      Always advance (fun m => ∀ x ∈ m.numbers, x.toNat < 2 ^ 20) {}
        (get_tokens ([' '].intercalate [['7'], ['D', 'U', 'P'], ['-']]) ' ') := by
  apply solution2_eq_reference
  refine .cons ⟨by decide, by simp, rfl, by decide⟩ (.cons rfl (.cons rfl .nil))

end CppPerf.Interpreters
