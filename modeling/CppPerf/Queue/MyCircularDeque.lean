import CppPerf.Semantics.RingWindow
import CppPerf.Semantics.Run
import CppPerf.Text.Parsing

/-! `MyCircularDeque` of `CircularDataStruct.cpp`. A sum that is no `int` fails,
and so do a division by zero and an access outside of the vector. -/
namespace CppPerf.Queue

open Ring Text Transition

structure MyCircularDeque where
  dq : List Int
  front : Int
  size : Int
  full : Int
deriving DecidableEq

namespace MyCircularDeque

def int (x : Int) : Option Int := if fitsInt x then some x else none

/-- `x % full` -/
def wrap (full x : Int) : Option Int :=
  if full = 0 then none else (int x).map fun x => x.tmod full

def read (dq : List Int) (i : Int) : Option Int := if 0 ≤ i then dq[i.toNat]? else none

def write (dq : List Int) (i value : Int) : Option (List Int) :=
  if 0 ≤ i ∧ i < dq.length then some (dq.set i.toNat value) else none

/-- A vector of a negative size is refused. -/
def construct (k : Int) : Option MyCircularDeque :=
  if 0 ≤ k then some ⟨List.replicate k.toNat 0, 0, 0, k⟩ else none

def isEmpty (d : MyCircularDeque) : Bool := d.size = 0

def isFull (d : MyCircularDeque) : Bool := d.size = d.full

def rearIndex (d : MyCircularDeque) : Option Int := do
  let last ← int (d.front + d.size)
  wrap d.full (last - 1)

def insertLast (d : MyCircularDeque) (value : Int) : Option (Bool × MyCircularDeque) :=
  if d.isFull then some (false, d)
  else do
    let slot ← wrap d.full (d.front + d.size)
    let dq ← write d.dq slot value
    return (true, { d with dq, size := d.size + 1 })

def insertFront (d : MyCircularDeque) (value : Int) : Option (Bool × MyCircularDeque) :=
  if d.isFull then some (false, d)
  else if d.isEmpty then d.insertLast value
  else do
    let before ← int (d.front - 1)
    let front ← wrap d.full (before + d.full)
    let dq ← write d.dq front value
    return (true, { d with dq, front, size := d.size + 1 })

def deleteFront (d : MyCircularDeque) : Option (Bool × MyCircularDeque) :=
  if d.isEmpty then some (false, d)
  else do
    let front ← wrap d.full (d.front + 1)
    return (true, { d with front, size := d.size - 1 })

def deleteLast (d : MyCircularDeque) : Bool × MyCircularDeque :=
  if d.isEmpty then (false, d) else (true, { d with size := d.size - 1 })

def getFront (d : MyCircularDeque) : Option Int :=
  if d.isEmpty then some (-1) else read d.dq d.front

def getRear (d : MyCircularDeque) : Option Int :=
  if d.isEmpty then some (-1) else d.rearIndex.bind (read d.dq)

inductive Call where
  | insertFront (value : Int)
  | insertLast (value : Int)
  | deleteFront
  | deleteLast
  | getFront
  | getRear
  | isEmpty
  | isFull

inductive Answer where
  | flag (b : Bool)
  | value (x : Int)
deriving DecidableEq

def answer (d : MyCircularDeque) : Call → Option (Answer × MyCircularDeque)
  | .insertFront value => (d.insertFront value).map fun (b, d) => (.flag b, d)
  | .insertLast value => (d.insertLast value).map fun (b, d) => (.flag b, d)
  | .deleteFront => d.deleteFront.map fun (b, d) => (.flag b, d)
  | .deleteLast => some (.flag d.deleteLast.1, d.deleteLast.2)
  | .getFront => d.getFront.map fun x => (.value x, d)
  | .getRear => d.getRear.map fun x => (.value x, d)
  | .isEmpty => some (.flag d.isEmpty, d)
  | .isFull => some (.flag d.isFull, d)

/-- The deque, and the answers so far. -/
def step : Step (MyCircularDeque × List Answer) Call := fun (d, answers) call =>
  (d.answer call).map fun (a, d) => (d, answers ++ [a])

/-! The deque is a list of at most `k` items. -/

/-- The answer of a list of at most `k` items, and the new list. -/
def specAnswer (k : Nat) (items : List Int) : Call → Answer × List Int
  | .insertFront value =>
      if items.length = k then (.flag false, items) else (.flag true, value :: items)
  | .insertLast value =>
      if items.length = k then (.flag false, items) else (.flag true, items ++ [value])
  | .deleteFront => (.flag !items.isEmpty, items.tail)
  | .deleteLast => (.flag !items.isEmpty, items.dropLast)
  | .getFront => (.value (items.headD (-1)), items)
  | .getRear => (.value (items.getLastD (-1)), items)
  | .isEmpty => (.flag items.isEmpty, items)
  | .isFull => (.flag (items.length = k), items)

def spec (k : Nat) (v : List Int × List Answer) (call : Call) : List Int × List Answer :=
  ((specAnswer k v.1 call).2, v.2 ++ [(specAnswer k v.1 call).1])

/-- The items are in the slots from the position `first` on. -/
structure Holds (d : MyCircularDeque) (k first : Nat) (items : List Int) : Prop where
  full : d.full = k
  slots : d.dq.length = k
  small : k ≤ 2 ^ 30
  size : d.size = items.length
  room : items.length ≤ k
  front : d.front = ((first % k : Nat) : Int)
  window : Window (fun i => d.dq.getD i 0) k first items

variable {d : MyCircularDeque} {k first n : Nat} {items : List Int} {dq : List Int}

theorem wrap_eq (hk : 0 < k) (hn : n < 2 ^ 31) : wrap k n = some ((n % k : Nat) : Int) := by
  have hFits : fitsInt n = true := by
    simp only [fitsInt, Bool.and_eq_true, decide_eq_true_eq]
    omega
  rw [wrap, if_neg (by omega), int, if_pos hFits, Option.map_some,
    Int.tmod_eq_emod_of_nonneg (Int.natCast_nonneg n), Int.natCast_mod]

theorem write_eq (hn : n < dq.length) (value : Int) :
    write dq n value = some (dq.set n value) := by
  rw [write, if_pos (by omega), Int.toNat_natCast]

theorem read_eq (hn : n < dq.length) : read dq n = some (dq.getD n 0) := by
  rw [read, if_pos (Int.natCast_nonneg n), Int.toNat_natCast, List.getElem?_eq_getElem hn,
    List.getD_eq_getElem?_getD, List.getElem?_eq_getElem hn, Option.getD_some]

theorem getD_set (hn : n < dq.length) (value : Int) :
    (fun i => (dq.set n value).getD i 0) = Function.update (fun i => dq.getD i 0) n value := by
  funext i
  rw [List.getD_eq_getElem?_getD, List.getElem?_set]
  by_cases hEq : n = i
  · rw [if_pos hEq, ← hEq, if_pos hn, Function.update_self, Option.getD_some]
  · rw [if_neg hEq, Function.update_of_ne (Ne.symm hEq), List.getD_eq_getElem?_getD]

theorem int_eq {x : Int} (hLower : -2 ^ 31 ≤ x) (hUpper : x < 2 ^ 31) : int x = some x := by
  rw [int, if_pos]
  simp only [fitsInt, Bool.and_eq_true, decide_eq_true_eq]
  omega

namespace Holds

theorem isEmpty_eq (h : Holds d k first items) : d.isEmpty = items.isEmpty := by
  rw [MyCircularDeque.isEmpty, h.size]
  cases items with
  | nil => rfl
  | cons x items => exact decide_eq_false (by rw [List.length_cons]; omega)

theorem isFull_eq (h : Holds d k first items) : d.isFull = decide (items.length = k) := by
  rw [MyCircularDeque.isFull, h.size, h.full]
  exact decide_eq_decide.mpr Int.ofNat_inj

theorem first_lt (h : Holds d k first items) (hk : 0 < k) : first % k < 2 ^ 30 :=
  Nat.lt_of_lt_of_le (Nat.mod_lt first hk) h.small

theorem getFront (h : Holds d k first items) : d.getFront = some (items.headD (-1)) := by
  rw [MyCircularDeque.getFront, h.isEmpty_eq]
  cases items with
  | nil => rfl
  | cons x items =>
      have hk : 0 < k := Nat.lt_of_lt_of_le (Nat.zero_lt_succ _) h.room
      have hSlot : first % k < d.dq.length := by
        rw [h.slots]
        exact Nat.mod_lt first hk
      rw [List.isEmpty_cons, if_neg Bool.false_ne_true, h.front, read_eq hSlot]
      exact congrArg some h.window.head

theorem rearIndex_eq (h : Holds d k first (items ++ [x])) :
    d.rearIndex = some (((first + items.length) % k : Nat) : Int) := by
  have hRoom := h.room
  have hSmall := h.small
  rw [List.length_append, List.length_singleton] at hRoom
  have hFirst := h.first_lt (by omega)
  rw [rearIndex, h.front, h.size, h.full, List.length_append, List.length_singleton,
    int_eq (by omega) (by omega), Option.bind_eq_bind, Option.bind_some,
    show ((first % k : Nat) : Int) + ((items.length + 1 : Nat) : Int) - 1 =
      ((first % k + items.length : Nat) : Int) by omega,
    wrap_eq (by omega) (by omega), Nat.mod_add_mod]

theorem getRear (h : Holds d k first items) : d.getRear = some (items.getLastD (-1)) := by
  rw [MyCircularDeque.getRear, h.isEmpty_eq]
  induction items using List.reverseRecOn with
  | nil => rfl
  | append_singleton items x _ =>
      have hRoom := h.room
      rw [List.length_append, List.length_singleton] at hRoom
      have hSlot : (first + items.length) % k < d.dq.length := by
        rw [h.slots]
        exact Nat.mod_lt _ (by omega)
      have hLast := h.window items.length (by rw [List.length_append]; exact Nat.lt_succ_self _)
      rw [if_neg (by simp), h.rearIndex_eq, Option.bind_some, read_eq hSlot, List.getLastD_concat]
      exact congrArg some (hLast.trans (List.getElem_concat_length rfl _))

theorem insertLast (h : Holds d k first items) (hRoom : items.length < k) (value : Int) :
    ∃ d', d.insertLast value = some (true, d') ∧ Holds d' k first (items ++ [value]) := by
  have hFirst := h.first_lt (by omega)
  have hSmall := h.small
  have hSlot : (first + items.length) % k < d.dq.length := by
    rw [h.slots]
    exact Nat.mod_lt _ (by omega)
  refine ⟨{ d with dq := d.dq.set ((first + items.length) % k) value, size := d.size + 1 }, ?_, ?_⟩
  · rw [MyCircularDeque.insertLast, h.isFull_eq, if_neg (by simpa using hRoom.ne), h.front, h.size,
      h.full, ← Int.natCast_add, wrap_eq (by omega) (by omega), Nat.mod_add_mod]
    simp only [Option.bind_eq_bind, Option.bind_some, write_eq hSlot, Option.pure_def]
  · constructor
    · exact h.full
    · exact (List.length_set).trans h.slots
    · exact h.small
    · rw [List.length_append, List.length_singleton, Int.natCast_add, ← h.size]
      rfl
    · rw [List.length_append, List.length_singleton]
      exact hRoom
    · exact h.front
    · rw [getD_set hSlot]
      exact h.window.push hRoom value

theorem insertFront (h : Holds d k first items) (hRoom : items.length < k) (value : Int) :
    ∃ d' first', d.insertFront value = some (true, d') ∧ Holds d' k first' (value :: items) := by
  rw [MyCircularDeque.insertFront, h.isFull_eq, if_neg (by simpa using hRoom.ne), h.isEmpty_eq]
  cases items with
  | nil =>
      obtain ⟨d', hInsert, hHolds⟩ := h.insertLast hRoom value
      exact ⟨d', first, hInsert, hHolds⟩
  | cons x items =>
      have hFirst := h.first_lt (by omega)
      have hSmall := h.small
      have hSlot : (first + (k - 1)) % k < d.dq.length := by
        rw [h.slots]
        exact Nat.mod_lt _ (by omega)
      have hWrap : wrap d.full (d.front - 1 + d.full) =
          some (((first + (k - 1)) % k : Nat) : Int) := by
        rw [h.front, h.full,
          show ((first % k : Nat) : Int) - 1 + k = ((first % k + (k - 1) : Nat) : Int) by omega,
          wrap_eq (by omega) (by omega), Nat.mod_add_mod]
      have hBefore : int (d.front - 1) = some (d.front - 1) := by
        rw [h.front]
        exact int_eq (by omega) (by omega)
      refine ⟨⟨d.dq.set ((first + (k - 1)) % k) value, ((first + (k - 1)) % k : Nat), d.size + 1,
        d.full⟩, first + (k - 1), ?_, ?_⟩
      · rw [List.isEmpty_cons, if_neg Bool.false_ne_true]
        simp only [Option.bind_eq_bind, Option.bind_some, hBefore, hWrap, write_eq hSlot,
          Option.pure_def]
      · constructor
        · exact h.full
        · exact (List.length_set).trans h.slots
        · exact h.small
        · rw [List.length_cons, Int.natCast_add, ← h.size]
          rfl
        · exact hRoom
        · rfl
        · rw [getD_set hSlot]
          exact h.window.push_front hRoom value

theorem deleteFront (h : Holds d k first items) :
    ∃ d' first', d.deleteFront = some (!items.isEmpty, d') ∧ Holds d' k first' items.tail := by
  rw [MyCircularDeque.deleteFront, h.isEmpty_eq]
  cases items with
  | nil => exact ⟨d, first, rfl, h⟩
  | cons x items =>
      have hRoom := h.room
      have hSmall := h.small
      rw [List.length_cons] at hRoom
      have hFirst := h.first_lt (by omega)
      have hWrap : wrap d.full (d.front + 1) = some (((first + 1) % k : Nat) : Int) := by
        rw [h.front, h.full, ← Int.natCast_succ, Nat.succ_eq_add_one,
          wrap_eq (by omega) (by omega), Nat.mod_add_mod]
      refine ⟨{ d with front := ((first + 1) % k : Nat), size := d.size - 1 }, first + 1, ?_, ?_⟩
      · rw [List.isEmpty_cons, if_neg Bool.false_ne_true]
        simp only [Option.bind_eq_bind, Option.bind_some, hWrap, Option.pure_def, Bool.not_false]
      · constructor
        · exact h.full
        · exact h.slots
        · exact h.small
        · rw [h.size, List.length_cons, Int.natCast_succ, Int.add_sub_cancel, List.tail_cons]
        · exact Nat.le_of_succ_le hRoom
        · rfl
        · exact h.window.tail

theorem deleteLast (h : Holds d k first items) :
    d.deleteLast.1 = !items.isEmpty ∧ Holds d.deleteLast.2 k first items.dropLast := by
  rw [MyCircularDeque.deleteLast, h.isEmpty_eq]
  cases items with
  | nil => exact ⟨rfl, h⟩
  | cons x items =>
      rw [List.isEmpty_cons, if_neg Bool.false_ne_true]
      constructor
      · rfl
      · constructor
        · exact h.full
        · exact h.slots
        · exact h.small
        · rw [h.size, List.length_dropLast, List.length_cons, Nat.succ_sub_one, Int.natCast_succ,
            Int.add_sub_cancel]
        · rw [List.length_dropLast]
          exact (Nat.sub_le _ _).trans h.room
        · exact h.front
        · exact h.window.dropLast

/-- Every call answers as the list of the items does. -/
theorem answer (h : Holds d k first items) (call : Call) :
    ∃ d' first', d.answer call = some ((specAnswer k items call).1, d') ∧
      Holds d' k first' (specAnswer k items call).2 := by
  cases call with
  | insertFront value =>
      by_cases hFull : items.length = k
      · refine ⟨d, first, ?_, ?_⟩
        · rw [MyCircularDeque.answer, MyCircularDeque.insertFront, h.isFull_eq,
            if_pos (decide_eq_true hFull), specAnswer, if_pos hFull, Option.map_some]
        · rw [specAnswer, if_pos hFull]
          exact h
      · obtain ⟨d', first', hInsert, hHolds⟩ :=
          h.insertFront (Nat.lt_of_le_of_ne h.room hFull) value
        refine ⟨d', first', ?_, ?_⟩
        · rw [MyCircularDeque.answer, hInsert, specAnswer, if_neg hFull, Option.map_some]
        · rw [specAnswer, if_neg hFull]
          exact hHolds
  | insertLast value =>
      by_cases hFull : items.length = k
      · refine ⟨d, first, ?_, ?_⟩
        · rw [MyCircularDeque.answer, MyCircularDeque.insertLast, h.isFull_eq,
            if_pos (decide_eq_true hFull), specAnswer, if_pos hFull, Option.map_some]
        · rw [specAnswer, if_pos hFull]
          exact h
      · obtain ⟨d', hInsert, hHolds⟩ := h.insertLast (Nat.lt_of_le_of_ne h.room hFull) value
        refine ⟨d', first, ?_, ?_⟩
        · rw [MyCircularDeque.answer, hInsert, specAnswer, if_neg hFull, Option.map_some]
        · rw [specAnswer, if_neg hFull]
          exact hHolds
  | deleteFront =>
      obtain ⟨d', first', hDelete, hHolds⟩ := h.deleteFront
      exact ⟨d', first', by rw [MyCircularDeque.answer, hDelete, Option.map_some]; rfl, hHolds⟩
  | deleteLast =>
      obtain ⟨hFlag, hHolds⟩ := h.deleteLast
      exact ⟨d.deleteLast.2, first, by rw [MyCircularDeque.answer, hFlag]; rfl, hHolds⟩
  | getFront =>
      exact ⟨d, first, by rw [MyCircularDeque.answer, h.getFront, Option.map_some]; rfl, h⟩
  | getRear =>
      exact ⟨d, first, by rw [MyCircularDeque.answer, h.getRear, Option.map_some]; rfl, h⟩
  | isEmpty => exact ⟨d, first, by rw [MyCircularDeque.answer, h.isEmpty_eq]; rfl, h⟩
  | isFull => exact ⟨d, first, by rw [MyCircularDeque.answer, h.isFull_eq]; rfl, h⟩

end Holds

theorem construct_holds (hk : k ≤ 2 ^ 30) : ∃ d, construct k = some d ∧ Holds d k 0 [] := by
  refine ⟨⟨List.replicate k 0, 0, 0, k⟩, ?_, ?_⟩
  · rw [construct, if_pos (Int.natCast_nonneg k), Int.toNat_natCast]
  · constructor
    · rfl
    · exact List.length_replicate
    · exact hk
    · rfl
    · exact Nat.zero_le k
    · rw [Nat.zero_mod]
      rfl
    · exact Window.nil _ k 0

/-- The deque holds the items, and the answers are those of the list. -/
def Follows (k : Nat) (s : MyCircularDeque × List Answer) (v : List Int × List Answer) : Prop :=
  s.2 = v.2 ∧ ∃ first, Holds s.1 k first v.1

theorem step_follows (k : Nat) (s : MyCircularDeque × List Answer) (v : List Int × List Answer)
    (call : Call) (h : Follows k s v) :
    ∃ t, step s call = some t ∧ Follows k t (spec k v call) := by
  obtain ⟨hAnswers, first, hHolds⟩ := h
  obtain ⟨d', first', hAnswer, hNext⟩ := hHolds.answer call
  refine ⟨(d', s.2 ++ [(specAnswer k v.1 call).1]), ?_, ?_, first', hNext⟩
  · rw [step, hAnswer, Option.map_some]
  · rw [hAnswers]
    rfl

/-- Over any calls the ring answers as a list of at most `k` items does. -/
theorem run_deque (hk : k ≤ 2 ^ 30) (calls : List Call) :
    ∃ d, (construct k).bind (fun d => run step (d, []) calls) =
      some (d, (calls.foldl (spec k) ([], [])).2) := by
  obtain ⟨d, hConstruct, hStart⟩ := construct_holds hk
  have hInit : Follows k (d, []) ([], []) := ⟨rfl, 0, hStart⟩
  obtain ⟨t, hRun, hAnswers, -⟩ := run_of_simulation (step_follows k) calls hInit
  refine ⟨t.1, ?_⟩
  rw [hConstruct, Option.bind_some, hRun, ← hAnswers]

theorem run_deque_three : ∃ d,
    (construct (3 : Nat)).bind (fun d => run step (d, [])
      [.insertLast 1, .insertLast 2, .insertFront 3, .insertFront 4, .getRear, .isFull,
        .deleteLast, .insertFront 4, .getFront]) =
      some (d, [.flag true, .flag true, .flag true, .flag false, .value 2, .flag true,
        .flag true, .flag true, .value 4]) :=
  run_deque (k := 3) (by decide) _

end MyCircularDeque
end CppPerf.Queue
