import Mathlib.Algebra.Order.Ring.Int
import Mathlib.Data.Option.Basic
import Mathlib.Tactic.Common

/-! The iterator over nested lists of `designIterator.cpp`. The list of a nested list is what
`getList` is to return. -/
namespace CppPerf.Sequences.NestedIterator

inductive NestedInteger where
  | integer (n : Int)
  | list (l : List NestedInteger)

/-- A pair of iterators, as what lies between them. -/
abbrev iter_pair := List NestedInteger

abbrev Stack := List iter_pair

mutual

def NestedInteger.nodes : NestedInteger → Nat
  | .integer _ => 1
  | .list l => nodesOf l + 1

def nodesOf : List NestedInteger → Nat
  | [] => 0
  | x :: l => x.nodes + nodesOf l

end

/-- The loop of `seekNext`. An iterator at the end cannot be moved on. -/
def seekNext : Stack → Option Stack
  | [] => some []
  | [] :: _ => none
  | (_ :: rest) :: nested => if rest.isEmpty then seekNext nested else some (rest :: nested)

/-- The loop of `findNextInt`, which reads the element on top of the stack. -/
def find_loop : (rounds : Nat) → Stack → Option Stack
  | 0, _ => none
  | rounds + 1, nested =>
      match nested with
      | (.integer _ :: _) :: _ => some nested
      | (.list nlist :: _) :: _ =>
          if !nlist.isEmpty then find_loop rounds (nlist :: nested)
          else do
            let nested ← seekNext nested
            if nested.isEmpty then return nested
            find_loop rounds nested
      | _ => none

/-- There are fewer rounds than nodes on the stack. -/
def findNextInt (nested : Stack) : Option Stack :=
  find_loop ((nested.map nodesOf).sum + 1) nested

/-- The constructor. -/
def start (nestedList : List NestedInteger) : Option Stack :=
  if nestedList.isEmpty then some [] else findNextInt [nestedList]

def hasNext (nested : Stack) : Bool := !nested.isEmpty

/-- The number and the new stack, unless the assertion fails. -/
def next (nested : Stack) : Option (Int × Stack) :=
  match nested with
  | (.integer ans :: _) :: _ => do
      let nested ← seekNext nested
      let nested ← if hasNext nested then findNextInt nested else some nested
      return (ans, nested)
  | _ => none

/-! The iterator yields the integers from left to right. -/

mutual

/-- The integers of a nested list, from left to right. -/
def NestedInteger.integers : NestedInteger → List Int
  | .integer n => [n]
  | .list l => integersOf l

def integersOf : List NestedInteger → List Int
  | [] => []
  | x :: l => x.integers ++ integersOf l

end

theorem integersOf_append (l l' : List NestedInteger) :
    integersOf (l ++ l') = integersOf l ++ integersOf l' := by
  induction l with
  | nil => rfl
  | cons x l ih => rw [List.cons_append, integersOf, integersOf, ih, List.append_assoc]

theorem nodesOf_append (l l' : List NestedInteger) :
    nodesOf (l ++ l') = nodesOf l + nodesOf l' := by
  induction l with
  | nil => exact (Nat.zero_add _).symm
  | cons x l ih => rw [List.cons_append, nodesOf, nodesOf, ih, Nat.add_assoc]

/-- What is still to be visited: below the top, the list that is being visited is behind. -/
def pending : Stack → List NestedInteger
  | [] => []
  | top :: nested => top ++ nested.flatMap List.tail

variable {nested : Stack} {top rest : iter_pair} {x : NestedInteger} {rounds : Nat}

/-- No iterator is at its end. -/
def Live (nested : Stack) : Prop := ∀ frame ∈ nested, frame ≠ []

theorem seekNext_spec (h : Live nested) :
    ∃ nested', seekNext nested = some nested' ∧ Live nested' ∧
      pending nested' = nested.flatMap List.tail := by
  induction nested with
  | nil => exact ⟨[], rfl, h, rfl⟩
  | cons top nested ih =>
      obtain ⟨hTop, hNested⟩ := List.forall_mem_cons.mp h
      cases top with
      | nil => exact absurd rfl hTop
      | cons x rest =>
          rw [seekNext]
          cases rest with
          | nil => exact ih hNested
          | cons y rest =>
              exact ⟨_, rfl, List.forall_mem_cons.mpr ⟨List.cons_ne_nil _ _, hNested⟩, rfl⟩

theorem seekNext_pending (h : Live nested) (hPending : pending nested = x :: rest) :
    ∃ nested', seekNext nested = some nested' ∧ Live nested' ∧ pending nested' = rest := by
  obtain ⟨nested', hSeek, hLive, hRest⟩ := seekNext_spec h
  refine ⟨nested', hSeek, hLive, hRest.trans ?_⟩
  cases nested with
  | nil => cases hPending
  | cons top nested =>
      cases top with
      | nil => exact absurd rfl (h [] (by simp))
      | cons y top =>
          rw [pending, List.cons_append, List.cons.injEq] at hPending
          rw [← hPending.2]
          rfl

/-- The stack is empty, or its top is an integer. -/
def Rests (nested : Stack) : Prop :=
  Live nested ∧ ∀ x ∈ (pending nested).head?, ∃ n, x = .integer n

theorem find_loop_integer {n : Int} (h : Live ((.integer n :: rest) :: nested)) :
    Rests ((.integer n :: rest) :: nested) :=
  ⟨h, fun _ hx => ⟨n, (Option.some.inj hx).symm⟩⟩

/-- A list on top is gone after one round, which leaves fewer nodes. -/
theorem find_loop_list {nlist : List NestedInteger} (h : Live ((.list nlist :: rest) :: nested)) :
    ∃ nested', Live nested' ∧
      integersOf (pending nested') = integersOf (pending ((.list nlist :: rest) :: nested)) ∧
      nodesOf (pending nested') < nodesOf (pending ((.list nlist :: rest) :: nested)) ∧
      ∀ rounds, find_loop (rounds + 1) ((.list nlist :: rest) :: nested) =
        if nested'.isEmpty then some nested' else find_loop rounds nested' := by
  have hPending : pending ((.list nlist :: rest) :: nested) =
      .list nlist :: (rest ++ nested.flatMap List.tail) := rfl
  cases nlist with
  | nil =>
      obtain ⟨nested', hSeek, hLive, hRest⟩ := seekNext_pending h hPending
      refine ⟨nested', hLive, by rw [hRest, hPending]; rfl, ?_, fun rounds => ?_⟩
      · rw [hRest, hPending, nodesOf, NestedInteger.nodes]
        omega
      · rw [find_loop]
        simp only [List.isEmpty_nil, Bool.not_true, Bool.false_eq_true, if_false, hSeek,
          Option.bind_eq_bind, Option.bind_some]
        rfl
  | cons y nlist =>
      have hInner : pending ((y :: nlist) :: (.list (y :: nlist) :: rest) :: nested) =
          (y :: nlist) ++ (rest ++ nested.flatMap List.tail) := rfl
      refine ⟨(y :: nlist) :: (.list (y :: nlist) :: rest) :: nested,
        List.forall_mem_cons.mpr ⟨List.cons_ne_nil _ _, h⟩, ?_, ?_, fun rounds => rfl⟩
      · rw [hInner, integersOf_append, hPending]
        rfl
      · have hNodes : nodesOf (pending ((.list (y :: nlist) :: rest) :: nested)) =
            nodesOf (y :: nlist) + 1 + nodesOf (rest ++ nested.flatMap List.tail) := rfl
        rw [hInner, nodesOf_append, hNodes]
        omega

theorem find_loop_spec (h : Live nested) (hSome : nested ≠ [])
    (hRounds : nodesOf (pending nested) < rounds) :
    ∃ nested', find_loop rounds nested = some nested' ∧ Rests nested' ∧
      integersOf (pending nested') = integersOf (pending nested) := by
  induction rounds generalizing nested with
  | zero => exact absurd hRounds (Nat.not_lt_zero _)
  | succ rounds ih =>
      match nested, h with
      | [] :: _, h => exact absurd rfl (h [] (by simp))
      | (.integer n :: top) :: nested, h => exact ⟨_, rfl, find_loop_integer h, rfl⟩
      | (.list nlist :: top) :: nested, h =>
          obtain ⟨nested', hLive, hSame, hFewer, hRound⟩ := find_loop_list h
          rw [hRound]
          cases nested' with
          | nil => exact ⟨[], rfl, ⟨hLive, nofun⟩, hSame⟩
          | cons frame nested' =>
              rw [← hSame]
              exact ih hLive (List.cons_ne_nil _ _) (by omega)

theorem nodesOf_tail_le (frame : iter_pair) : nodesOf frame.tail ≤ nodesOf frame := by
  cases frame with
  | nil => exact Nat.le_refl _
  | cons x frame => exact Nat.le_add_left _ _

theorem nodesOf_pending_le (nested : Stack) :
    nodesOf (pending nested) ≤ (nested.map nodesOf).sum := by
  have hBelow : ∀ nested : Stack,
      nodesOf (nested.flatMap List.tail) ≤ (nested.map nodesOf).sum := by
    intro nested
    induction nested with
    | nil => exact Nat.le_refl _
    | cons frame nested ih =>
        rw [List.flatMap_cons, nodesOf_append, List.map_cons, List.sum_cons]
        exact Nat.add_le_add (nodesOf_tail_le frame) ih
  cases nested with
  | nil => exact Nat.le_refl _
  | cons top nested =>
      rw [pending, nodesOf_append, List.map_cons, List.sum_cons]
      exact Nat.add_le_add_left (hBelow nested) _

theorem findNextInt_spec (h : Live nested) (hSome : nested ≠ []) :
    ∃ nested', findNextInt nested = some nested' ∧ Rests nested' ∧
      integersOf (pending nested') = integersOf (pending nested) :=
  find_loop_spec h hSome (Nat.lt_succ_of_le (nodesOf_pending_le nested))

/-- The numbers that an iterator yields while it has a next one, the assertion never failing. -/
inductive Yields : Stack → List Int → Prop where
  | done {nested : Stack} (hDone : hasNext nested = false) : Yields nested []
  | step {nested nested' : Stack} {ans : Int} {rest : List Int}
      (hMore : hasNext nested = true) (hNext : next nested = some (ans, nested'))
      (hRest : Yields nested' rest) : Yields nested (ans :: rest)

/-- A number is taken from the front of those that are left. -/
theorem next_spec (h : Rests nested) (hSome : nested ≠ []) :
    ∃ ans nested', next nested = some (ans, nested') ∧ Rests nested' ∧
      integersOf (pending nested) = ans :: integersOf (pending nested') := by
  obtain ⟨hLive, hTop⟩ := h
  cases nested with
  | nil => exact absurd rfl hSome
  | cons top nested =>
      cases top with
      | nil => exact absurd rfl (hLive [] (by simp))
      | cons x top =>
          obtain ⟨ans, rfl⟩ := hTop x rfl
          have hPending : pending ((.integer ans :: top) :: nested) =
              .integer ans :: (top ++ nested.flatMap List.tail) := rfl
          obtain ⟨nested', hSeek, hLive', hRest⟩ := seekNext_pending hLive hPending
          simp only [next, hSeek, Option.bind_eq_bind, Option.bind_some]
          cases nested' with
          | nil =>
              refine ⟨ans, [], rfl, ⟨hLive', nofun⟩, ?_⟩
              rw [hPending, ← hRest]
              rfl
          | cons frame nested' =>
              obtain ⟨found, hFind, hRests, hSame⟩ :=
                findNextInt_spec hLive' (List.cons_ne_nil _ _)
              refine ⟨ans, found, ?_, hRests, ?_⟩
              · simp only [hasNext, List.isEmpty_cons, Bool.not_false, if_true, hFind,
                  Option.bind_some, Option.pure_def]
              · rw [hPending, hSame, hRest]
                rfl

theorem yields_of_rests {ints : List Int} (h : Rests nested)
    (hInts : integersOf (pending nested) = ints) : Yields nested ints := by
  induction ints generalizing nested with
  | nil =>
      by_cases hSome : nested = []
      · exact Yields.done (by rw [hSome]; rfl)
      · obtain ⟨ans, nested', -, -, hEq⟩ := next_spec h hSome
        rw [hInts] at hEq
        cases hEq
  | cons n ints ih =>
      have hSome : nested ≠ [] := by
        rintro rfl
        cases hInts
      obtain ⟨ans, nested', hNext, hRests, hEq⟩ := next_spec h hSome
      rw [hInts, List.cons.injEq] at hEq
      obtain ⟨rfl, hRest⟩ := hEq
      exact Yields.step (by simpa [hasNext] using hSome) hNext (ih hRests hRest.symm)

/-- An iterator yields the integers of its list from left to right. -/
theorem start_yields (nestedList : List NestedInteger) :
    ∃ nested, start nestedList = some nested ∧ Yields nested (integersOf nestedList) := by
  cases nestedList with
  | nil => exact ⟨[], rfl, Yields.done rfl⟩
  | cons x rest =>
      have hLive : Live [x :: rest] := List.forall_mem_singleton.mpr (List.cons_ne_nil _ _)
      obtain ⟨nested, hFind, hRests, hSame⟩ := findNextInt_spec hLive (List.cons_ne_nil _ _)
      refine ⟨nested, hFind, yields_of_rests hRests (hSame.trans ?_)⟩
      rw [pending, List.flatMap_nil, List.append_nil]

end CppPerf.Sequences.NestedIterator
