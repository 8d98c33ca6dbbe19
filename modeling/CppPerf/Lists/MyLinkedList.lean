import CppPerf.Memory.NodeHeap
import CppPerf.Semantics.Run
import Mathlib.Algebra.Order.Ring.Int
import Mathlib.Data.List.Basic

/-! The class `MyLinkedList` of `LinkedList.cpp`. Every node owns the one behind it, and `tail`
points to the last node without owning it. -/
namespace CppPerf.Lists

open Heap LinkedList Transition

structure MyLinkedList where
  heap : NodeHeap Int
  head : Nat
  tail : Nat
  size : Int

namespace MyLinkedList

def construct : MyLinkedList := ⟨NodeHeap.initial, 0, 0, 0⟩

/-- `size++`, which must not overflow. -/
def increment (size : Int) : Option Int := if size < 2 ^ 31 - 1 then some (size + 1) else none

/-- What a `unique_ptr` deletes: the node, after everything that the node owns. -/
def destroy (h : NodeHeap Int) : (depth : Nat) → (p : Nat) → Option (NodeHeap Int)
  | 0, p => if p = 0 then some h else none
  | depth + 1, p =>
      if p = 0 then some h
      else (destroy (h.touch p) depth (h.next p)).map fun h => h.free p

/-- No node of the list has more successors. -/
def depth (s : MyLinkedList) : Nat := s.size.toNat + 1

/-- `p->next = move(q)` for a pointer `q` that nothing else owns. -/
def assignNext (h : NodeHeap Int) (depth p q : Nat) : Option (NodeHeap Int) :=
  destroy (h.storeNext p q) depth (h.next p)

/-- `move(p->next)` leaves a null pointer behind. -/
def release (h : NodeHeap Int) (p : Nat) : NodeHeap Int × Nat := (h.storeNext p 0, h.next p)

def find (h : NodeHeap Int) (cur : Nat) : (idx : Nat) → NodeHeap Int × Nat
  | 0 => (h, cur)
  | idx + 1 => find (h.touch cur) (h.next cur) idx

def get (s : MyLinkedList) (index : Int) : MyLinkedList × Int :=
  if index < s.size then
    let (h, p) := find s.heap s.head index.toNat
    ({ s with heap := h.touch p }, h.data p)
  else (s, -1)

/-- `n` is the address at which the new node is made. -/
def addAtHead (s : MyLinkedList) (val : Int) (n : Nat) : Option MyLinkedList :=
  let h := s.heap.create n val
  if s.tail ≠ 0 then do
    let h ← assignNext h s.depth n s.head
    let size ← increment s.size
    some { s with heap := h, head := n, size := size }
  else do
    let h ← destroy h s.depth s.head
    let size ← increment s.size
    some { heap := h, head := n, tail := n, size := size }

def addAtTail (s : MyLinkedList) (val : Int) (n : Nat) : Option MyLinkedList :=
  if s.size = 0 then s.addAtHead val n
  else do
    let h ← assignNext (s.heap.create n val) s.depth s.tail n
    let size ← increment s.size
    some { s with heap := h, tail := h.next s.tail, size := size }

def addAtIndex (s : MyLinkedList) (index val : Int) (n : Nat) : Option MyLinkedList :=
  if index ≤ 0 then s.addAtHead val n
  else if index = s.size then s.addAtTail val n
  else if index < s.size then do
    let (h, cur) := find s.heap s.head (index - 1).toNat
    let (h, next) := release h cur
    let h ← assignNext (h.create n val) s.depth cur n
    let h ← assignNext h s.depth (h.next cur) next
    let size ← increment s.size
    some { s with heap := h, size := size }
  else some s

def deleteAtIndex (s : MyLinkedList) (index : Int) : Option MyLinkedList :=
  if s.size = 0 ∨ index < 0 ∨ s.size ≤ index then some s
  else
    let size := s.size - 1
    if index = 0 then do
      let (h, next) := release s.heap s.head
      let h ← destroy h s.depth s.head
      some { heap := h, head := next, tail := if size < 1 then 0 else s.tail, size := size }
    else do
      let (h, prev) := find s.heap s.head (index - 1).toNat
      let (h, next) := release (h.touch prev) (h.next prev)
      let h ← assignNext h s.depth prev next
      some { s with heap := h, tail := if index = size then prev else s.tail, size := size }

/-- With the address of the new node, if there is one. -/
inductive Call where
  | get (index : Int)
  | addAtHead (val : Int) (n : Nat)
  | addAtTail (val : Int) (n : Nat)
  | addAtIndex (index val : Int) (n : Nat)
  | deleteAtIndex (index : Int)

/-- The list, and what the calls of `get` have returned. -/
def step : Step (MyLinkedList × List Int) Call
  | (s, answers), .get index => some ((s.get index).1, answers ++ [(s.get index).2])
  | (s, answers), .addAtHead val n => (s.addAtHead val n).map (·, answers)
  | (s, answers), .addAtTail val n => (s.addAtTail val n).map (·, answers)
  | (s, answers), .addAtIndex index val n => (s.addAtIndex index val n).map (·, answers)
  | (s, answers), .deleteAtIndex index => (s.deleteAtIndex index).map (·, answers)

/-- The same calls on a list of values. -/
def spec : List Int × List Int → Call → List Int × List Int
  | (values, answers), .get index => (values, answers ++ [(values[index.toNat]?).getD (-1)])
  | (values, answers), .addAtHead val _ => (val :: values, answers)
  | (values, answers), .addAtTail val _ => (values ++ [val], answers)
  | (values, answers), .addAtIndex index val _ =>
      (if index ≤ values.length then values.take index.toNat ++ val :: values.drop index.toNat
        else values, answers)
  | (values, answers), .deleteAtIndex index =>
      (if 0 ≤ index then values.eraseIdx index.toNat else values, answers)

/-- A new node is made where no node is, and the number of nodes stays a value of `int`. -/
def Room (s : MyLinkedList) (n : Nat) : Prop :=
  s.heap.allocated n = false ∧ n ≠ 0 ∧ s.size < 2 ^ 31 - 1

/-- `get` reads a node for every index below the size, also for a negative one. -/
def Permitted : MyLinkedList × List Int → Call → Prop
  | (s, _), .get index => 0 ≤ index ∨ 0 < s.size
  | (s, _), .addAtHead _ n => s.Room n
  | (s, _), .addAtTail _ n => s.Room n
  | (s, _), .addAtIndex _ _ n => s.Room n
  | (_, _), .deleteAtIndex _ => True

instance (s : MyLinkedList) (n : Nat) : Decidable (s.Room n) :=
  inferInstanceAs (Decidable (_ ∧ _ ∧ _))

instance (state : MyLinkedList × List Int) (call : Call) : Decidable (Permitted state call) :=
  match call with
  | .get index => inferInstanceAs (Decidable (0 ≤ index ∨ 0 < state.1.size))
  | .addAtHead _ n | .addAtTail _ n | .addAtIndex _ _ n =>
      inferInstanceAs (Decidable (state.1.Room n))
  | .deleteAtIndex _ => isTrue trivial

/-- The nodes from the first to the last one, with their values. There are no other nodes. -/
structure Linked (s : MyLinkedList) (cells : List Nat) (values : List Int) : Prop where
  owns : s.heap.Owns cells
  list : IsList s.heap.next 0 s.head cells
  data_eq : cells.map s.heap.data = values
  tail_eq : s.tail = lastCell 0 cells
  size_eq : s.size = cells.length
  only : ∀ p, s.heap.allocated p = true → p ∈ cells

def Holds (s : MyLinkedList) (values : List Int) : Prop := ∃ cells, s.Linked cells values

variable {s : MyLinkedList} {h : NodeHeap Int} {cells front back : List Nat} {values : List Int}
  {p cell n : Nat} {val : Int}

theorem increment_eq {size : Int} (h : size < 2 ^ 31 - 1) : increment size = some (size + 1) :=
  if_pos h

theorem destroy_null (h : NodeHeap Int) (depth : Nat) : destroy h depth 0 = some h := by
  cases depth <;> rfl

/-- A node that owns no other one. -/
theorem destroy_last (hOwns : h.Owns (p :: cells)) (hLast : h.next p = 0) (depth : Nat) :
    destroy h (depth + 1) p = some (h.free p) := by
  have hp : p ≠ 0 := hOwns.nonnull p List.mem_cons_self
  rw [destroy, if_neg hp, hLast, destroy_null, hOwns.touch_eq List.mem_cons_self, Option.map_some]

theorem assignNext_null {q depth : Nat} (hNext : h.next p = 0) :
    assignNext h depth p q = some (h.storeNext p q) := by
  rw [assignNext, hNext, destroy_null]

theorem find_eq (hOwns : h.Owns (front ++ cell :: back))
    (hList : IsList h.next 0 p (front ++ cell :: back)) :
    find h p front.length = (h, cell) := by
  induction front generalizing p with
  | nil => rw [List.length_nil, find, hList.1]
  | cons first front ih =>
      obtain ⟨rfl, -, hRest⟩ := hList
      rw [List.length_cons, find, hOwns.touch_eq (by simp)]
      exact ih hOwns.tail hRest

/-- The node at an index. -/
theorem exists_split {i : Nat} (hi : i < cells.length) :
    ∃ front cell back, cells = front ++ cell :: back ∧ front.length = i := by
  refine ⟨cells.take i, cells[i], cells.drop (i + 1), ?_, ?_⟩
  · rw [← List.drop_eq_getElem_cons hi, List.take_append_drop]
  · rw [List.length_take, Nat.min_eq_left (Nat.le_of_lt hi)]

theorem Linked.getElem?_eq (hLinked : s.Linked (front ++ cell :: back) values) :
    values[front.length]? = some (s.heap.data cell) := by
  rw [← hLinked.data_eq]
  simp

theorem Linked.length_eq (hLinked : s.Linked cells values) : cells.length = values.length := by
  rw [← hLinked.data_eq, List.length_map]

theorem Linked.size_values (hLinked : s.Linked cells values) : s.size = values.length := by
  rw [hLinked.size_eq, hLinked.length_eq]

theorem construct_linked : construct.Linked [] [] where
  owns := NodeHeap.initial_owns
  list := rfl
  data_eq := rfl
  tail_eq := rfl
  size_eq := rfl
  only _ hp := nomatch hp

/-- Reading changes nothing, since every node that is read is there. -/
theorem Linked.get_eq (hLinked : s.Linked cells values) {index : Int}
    (hIndex : 0 ≤ index ∨ 0 < s.size) :
    s.get index = (s, (values[index.toNat]?).getD (-1)) := by
  have hSize := hLinked.size_eq
  unfold get
  by_cases hLt : index < s.size
  · rw [if_pos hLt]
    obtain ⟨front, cell, back, rfl, hFront⟩ := exists_split
      (show index.toNat < cells.length by omega)
    rw [← hFront, find_eq hLinked.owns hLinked.list, hLinked.getElem?_eq]
    simp only [hLinked.owns.touch_eq (show cell ∈ front ++ cell :: back by simp), Option.getD_some]
  · have hLength := hLinked.size_values
    rw [if_neg hLt, List.getElem?_eq_none (by omega), Option.getD_none]

theorem only_create (val : Int) (hOnly : ∀ p, h.allocated p = true → p ∈ cells) :
    ∀ p, (h.create n val).allocated p = true → p ∈ n :: cells := by
  intro p hp
  by_cases hEq : p = n
  · exact hEq ▸ List.mem_cons_self
  · apply List.mem_cons_of_mem
    apply hOnly
    simpa [NodeHeap.create, hEq] using hp

theorem Linked.addAtHead (hLinked : s.Linked cells values) (val : Int) (hRoom : s.Room n) :
    ∃ s', s.addAtHead val n = some s' ∧ s'.Linked (n :: cells) (val :: values) := by
  obtain ⟨hFree, hNull, hSize⟩ := hRoom
  have hNew := hLinked.owns.not_mem hFree
  have hOwns := hLinked.owns.create hFree hNull val
  have hList := NodeHeap.isList_create (t := val) hLinked.list hNew
  have hData : (n :: cells).map (s.heap.create n val).data = val :: values := by
    rw [List.map_cons, NodeHeap.map_data_create hNew, hLinked.data_eq]
    simp [NodeHeap.create]
  unfold MyLinkedList.addAtHead
  cases cells with
  | nil =>
      have hHead : s.head = 0 := hLinked.list
      have hTail : s.tail = 0 := hLinked.tail_eq
      rw [if_neg (not_not.mpr hTail), hHead, destroy_null, Option.bind_eq_bind, Option.bind_some,
        increment_eq hSize]
      refine ⟨_, rfl, hOwns, ⟨rfl, hNull, ?_⟩, hData, rfl, ?_, only_create val hLinked.only⟩
      · simp [NodeHeap.create, IsList]
      · simp [hLinked.size_eq]
  | cons first rest =>
      have hTail : s.tail ≠ 0 := by
        rw [hLinked.tail_eq]
        exact hLinked.owns.nonnull _ (lastCell_mem first rest)
      rw [if_pos hTail, assignNext_null (by simp [NodeHeap.create]), Option.bind_eq_bind,
        Option.bind_some, increment_eq hSize]
      refine ⟨_, rfl, hOwns.storeNext List.mem_cons_self _, NodeHeap.isList_link hList hNew hNull,
        hData, hLinked.tail_eq, ?_, only_create val hLinked.only⟩
      simp [hLinked.size_eq]

/-- A new node between a node and the one behind it. -/
theorem Linked.insert_behind (hLinked : s.Linked (front ++ cell :: back) values)
    (hNew : n ∉ front ++ cell :: back) (hNull : n ≠ 0) {h' : NodeHeap Int}
    (hOwns : h'.Owns (n :: (front ++ cell :: back)))
    (hData : h'.data = (s.heap.create n val).data)
    (hAllocated : h'.allocated = (s.heap.create n val).allocated)
    (hCell : h'.next cell = n) (hNext : h'.next n = s.heap.next cell)
    (hSame : ∀ q, q ≠ cell → q ≠ n → h'.next q = s.heap.next q) :
    ({ heap := h', head := s.head, tail := lastCell 0 (front ++ cell :: n :: back),
       size := s.size + 1 } : MyLinkedList).Linked (front ++ cell :: n :: back)
      (values.take (front.length + 1) ++ val :: values.drop (front.length + 1)) := by
  have hPerm : (n :: (front ++ cell :: back)).Perm (front ++ cell :: n :: back) := by
    rw [List.append_cons front cell back, List.append_cons front cell (n :: back)]
    exact List.perm_middle.symm
  have hFront := List.disjoint_of_nodup_append hLinked.owns.nodup
  have hBack := hLinked.owns.nodup.of_append_right
  have hNe : ∀ q ∈ front ++ cell :: back, q ≠ n := by
    rintro q hq rfl
    exact hNew hq
  have hValues : values = (front ++ [cell]).map s.heap.data ++ back.map s.heap.data := by
    rw [← hLinked.data_eq]
    simp
  refine ⟨hOwns.perm hPerm, ?_, ?_, rfl, ?_, ?_⟩
  · apply hLinked.list.relink
    · intro q hq
      apply hSame q _ (hNe q (List.mem_append_left _ hq))
      rintro rfl
      exact hFront hq List.mem_cons_self
    · refine ⟨hCell, hNull, ?_⟩
      rw [hNext]
      apply hLinked.list.suffix.congr
      intro q hq
      apply hSame q _ (hNe q (by simp [hq]))
      rintro rfl
      exact (List.nodup_cons.mp hBack).1 hq
  · have hLength : ((front ++ [cell]).map s.heap.data).length = front.length + 1 := by simp
    have hLeft : n ∉ front ++ [cell] := fun hMem => hNew (by
      rw [List.append_cons]
      exact List.mem_append_left _ hMem)
    have hRight : n ∉ back := fun hMem => hNew (by simp [hMem])
    rw [hValues, List.take_left' hLength, List.drop_left' hLength, hData, List.append_cons,
      List.map_append, NodeHeap.map_data_create hLeft, List.map_cons,
      NodeHeap.map_data_create hRight]
    simp [NodeHeap.create]
  · have hSize := hLinked.size_eq
    simp only [List.length_append, List.length_cons] at hSize ⊢
    omega
  · intro q hq
    rw [hAllocated] at hq
    exact hPerm.mem_iff.mp (only_create val hLinked.only q hq)

theorem Linked.addAtTail (hLinked : s.Linked cells values) (val : Int) (hRoom : s.Room n) :
    ∃ s', s.addAtTail val n = some s' ∧ s'.Holds (values ++ [val]) := by
  have hSize := hLinked.size_eq
  unfold MyLinkedList.addAtTail
  rcases List.eq_nil_or_concat' cells with rfl | ⟨front, last, rfl⟩
  · obtain rfl : values = [] := hLinked.data_eq.symm
    obtain ⟨s', hEq, hNew⟩ := hLinked.addAtHead val hRoom
    rw [if_pos (by simpa using hSize)]
    exact ⟨s', hEq, _, hNew⟩
  · obtain ⟨hFree, hNull, hLt⟩ := hRoom
    have hNew := hLinked.owns.not_mem hFree
    have hEnd : s.heap.next last = 0 := hLinked.list.suffix
    have hNe : last ≠ n := by
      rintro rfl
      exact hNew (by simp)
    have hTail : s.tail = last := by rw [hLinked.tail_eq, lastCell_concat]
    rw [if_neg (by simp [hSize]; omega), hTail,
      assignNext_null (by simp [NodeHeap.create, hNe, hEnd]), Option.bind_eq_bind,
      Option.bind_some, increment_eq hLt]
    have hOwns := (hLinked.owns.create hFree hNull val).storeNext
      (p := last) (by simp) n
    have hOther : ∀ q, q ≠ last → q ≠ n →
        ((s.heap.create n val).storeNext last n).next q = s.heap.next q := by
      intro q hLast hq
      rw [NodeHeap.next_storeNext_of_ne _ hLast]
      exact Function.update_of_ne hq ..
    have hNext : ((s.heap.create n val).storeNext last n).next n = s.heap.next last := by
      rw [NodeHeap.next_storeNext_of_ne _ hNe.symm, hEnd]
      simp [NodeHeap.create]
    have hInsert := hLinked.insert_behind hNew hNull hOwns rfl rfl
      (NodeHeap.next_storeNext_self ..) hNext hOther
    have hLength : values.length = front.length + 1 := by
      rw [← hLinked.length_eq]
      simp
    rw [List.take_of_length_le (by omega), List.drop_of_length_le (by omega)] at hInsert
    refine ⟨_, rfl, front ++ [last, n], ?_⟩
    rw [NodeHeap.next_storeNext_self]
    convert hInsert using 2
    rw [List.append_cons, lastCell_concat]

/-- The third branch of `addAtIndex`. -/
theorem Linked.insert_middle (hLinked : s.Linked cells values) (hRoom : s.Room n) {index : Int}
    (hPos : 0 < index) (hIndex : index < s.size) :
    ∃ s', (do
        let (h, cur) := find s.heap s.head (index - 1).toNat
        let (h, next) := release h cur
        let h ← assignNext (h.create n val) s.depth cur n
        let h ← assignNext h s.depth (h.next cur) next
        let size ← increment s.size
        some { s with heap := h, size := size }) = some s' ∧
      s'.Holds (values.take index.toNat ++ val :: values.drop index.toNat) := by
  obtain ⟨hFree, hNull, hLt⟩ := hRoom
  have hSize := hLinked.size_eq
  obtain ⟨front, cur, back, rfl, hFront⟩ := exists_split
    (show (index - 1).toNat < cells.length by omega)
  have hNew := hLinked.owns.not_mem hFree
  have hNe : cur ≠ n := by
    rintro rfl
    exact hNew (by simp)
  have hCur : cur ∈ front ++ cur :: back := by simp
  rw [← hFront, find_eq hLinked.owns hLinked.list]
  simp only [release]
  have hCut := (hLinked.owns.storeNext hCur 0).create hFree hNull val
  rw [assignNext_null (by simp [NodeHeap.create, NodeHeap.storeNext, hNe]), Option.bind_eq_bind,
    Option.bind_some, NodeHeap.next_storeNext_self,
    assignNext_null (by simp [NodeHeap.create, NodeHeap.storeNext, hNe.symm]),
    Option.bind_eq_bind, Option.bind_some, increment_eq hLt]
  have hOwns := (hCut.storeNext (p := cur) (by simp) n).storeNext List.mem_cons_self
    (s.heap.next cur)
  have hCell : ∀ h : NodeHeap Int,
      ((h.storeNext cur n).storeNext n (s.heap.next cur)).next cur = n := by
    intro h
    rw [NodeHeap.next_storeNext_of_ne _ hNe, NodeHeap.next_storeNext_self]
  have hInsert := hLinked.insert_behind hNew hNull hOwns rfl rfl (hCell _)
    (NodeHeap.next_storeNext_self ..) (fun q hq hn => by
      simp [NodeHeap.create, NodeHeap.storeNext, hq, hn])
  have hAt : front.length + 1 = index.toNat := by omega
  rw [hAt] at hInsert
  refine ⟨_, rfl, front ++ cur :: n :: back, ?_⟩
  convert hInsert using 2
  -- The last node is behind the new one.
  obtain ⟨next, back, rfl⟩ := List.exists_cons_of_length_pos (l := back) (by
    rw [List.length_append, List.length_cons] at hSize
    omega)
  rw [hLinked.tail_eq, lastCell_append, lastCell_append]
  rfl

theorem Linked.addAtIndex (hLinked : s.Linked cells values) (index val : Int) (hRoom : s.Room n) :
    ∃ s', s.addAtIndex index val n = some s' ∧
      s'.Holds (if index ≤ values.length then values.take index.toNat ++ val ::
        values.drop index.toNat else values) := by
  have hSize := hLinked.size_values
  unfold MyLinkedList.addAtIndex
  split_ifs with hHead hLe hTail hLe hMiddle hLe
  · rw [Int.toNat_of_nonpos hHead]
    obtain ⟨s', hEq, hNew⟩ := hLinked.addAtHead val hRoom
    exact ⟨s', hEq, _, hNew⟩
  · omega
  · rw [List.take_of_length_le (by omega), List.drop_of_length_le (by omega)]
    exact hLinked.addAtTail val hRoom
  · omega
  · exact hLinked.insert_middle hRoom (by omega) hMiddle
  · omega
  · omega
  · exact ⟨s, rfl, cells, hLinked⟩

theorem only_free (hNodup : (p :: cells).Nodup)
    (hOnly : ∀ q, h.allocated q = true → q ∈ p :: cells) :
    ∀ q, (h.free p).allocated q = true → q ∈ cells := by
  intro q hq
  have hNe : q ≠ p := by
    rintro rfl
    simp [NodeHeap.free] at hq
  apply List.mem_of_ne_of_mem hNe
  apply hOnly
  simpa [NodeHeap.free, hNe] using hq

/-- The first node is deleted. -/
theorem Linked.delete_head (hLinked : s.Linked (cell :: back) values) :
    ∃ s', s.deleteAtIndex 0 = some s' ∧ s'.Holds values.tail := by
  have hSize := hLinked.size_eq
  rw [List.length_cons] at hSize
  have hHead : s.head = cell := hLinked.list.1
  have hOwns := hLinked.owns.storeNext List.mem_cons_self 0
  unfold MyLinkedList.deleteAtIndex
  rw [if_neg (by omega)]
  simp only [↓reduceIte, hHead, release]
  rw [depth, destroy_last hOwns (NodeHeap.next_storeNext_self ..), Option.bind_eq_bind,
    Option.bind_some]
  refine ⟨_, rfl, back, hOwns.free, ?_, ?_, ?_, ?_, only_free hOwns.nodup hLinked.only⟩
  · exact NodeHeap.isList_storeNext hLinked.list.2.2 hLinked.owns.head_not_mem
  · rw [← hLinked.data_eq]
    rfl
  · cases back with
    | nil => exact if_pos (by simp at hSize; omega)
    | cons next back =>
        rw [List.length_cons] at hSize
        rw [if_neg (by omega), hLinked.tail_eq]
        rfl
  · change s.size - 1 = back.length
    omega

/-- The node behind another one is deleted. -/
theorem Linked.delete_behind (hLinked : s.Linked (front ++ p :: cell :: back) values) :
    ∃ s', s.deleteAtIndex (front.length + 1) = some s' ∧
      s'.Holds (values.eraseIdx (front.length + 1)) := by
  have hSize := hLinked.size_eq
  simp only [List.length_append, List.length_cons] at hSize
  have hPerm : (front ++ p :: cell :: back).Perm (cell :: (front ++ p :: back)) := by
    rw [List.append_cons front p back, List.append_cons front p (cell :: back)]
    exact List.perm_middle
  have hOwns := hLinked.owns.perm hPerm
  have hNodup := hLinked.owns.nodup
  have hFront := List.disjoint_of_nodup_append hNodup
  have hBack := hNodup.of_append_right
  have hNe : cell ≠ p := by
    rintro rfl
    simp at hBack
  have hNext : s.heap.next p = cell := hLinked.list.suffix.1
  unfold MyLinkedList.deleteAtIndex
  rw [if_neg (by omega), if_neg (by omega)]
  rw [show ((front.length : Int) + 1 - 1).toNat = front.length by omega,
    find_eq hLinked.owns hLinked.list]
  simp only [release, hLinked.owns.touch_eq (show p ∈ front ++ p :: cell :: back by simp), hNext]
  have hCut := (hOwns.storeNext List.mem_cons_self 0).storeNext
    (p := p) (by simp) (s.heap.next cell)
  rw [assignNext, NodeHeap.next_storeNext_of_ne _ hNe.symm, hNext, depth,
    destroy_last hCut (by
      rw [NodeHeap.next_storeNext_of_ne _ hNe, NodeHeap.next_storeNext_self]),
    Option.bind_eq_bind, Option.bind_some]
  have hSame : ∀ q, q ≠ p → q ≠ cell → (((s.heap.storeNext cell 0).storeNext p
      (s.heap.next cell)).free cell).next q = s.heap.next q := by
    intro q hq hCell
    simp [NodeHeap.free, NodeHeap.touch, NodeHeap.storeNext, hq, hCell]
  refine ⟨_, rfl, front ++ p :: back, hCut.free, ?_, ?_, ?_, ?_, ?_⟩
  · apply hLinked.list.relink
    · intro q hq
      apply hSame <;> rintro rfl
      · exact hFront hq (by simp)
      · exact hFront hq (by simp)
    · have hSelf : (((s.heap.storeNext cell 0).storeNext p
          (s.heap.next cell)).free cell).next p = s.heap.next cell :=
        NodeHeap.next_storeNext_self ..
      rw [hSelf]
      apply hLinked.list.suffix.2.2.congr
      intro q hq
      apply hSame <;> rintro rfl
      · exact (List.nodup_cons.mp hBack).1 (List.mem_cons_of_mem _ hq)
      · exact (List.nodup_cons.mp (List.nodup_cons.mp hBack).2).1 hq
  · have hLength : ((front ++ [p]).map s.heap.data).length = front.length + 1 := by simp
    have hValues : values = (front ++ [p]).map s.heap.data ++ (cell :: back).map s.heap.data := by
      rw [← hLinked.data_eq, List.append_cons, List.map_append]
    rw [hValues, List.eraseIdx_append_of_length_le (Nat.le_of_eq hLength), hLength, Nat.sub_self,
      List.map_cons, List.eraseIdx_cons_zero, List.append_cons, List.map_append]
    rfl
  · cases back with
    | nil =>
        rw [List.length_nil] at hSize
        rw [if_pos (by omega), lastCell_concat]
    | cons next back =>
        rw [List.length_cons] at hSize
        rw [if_neg (by omega), hLinked.tail_eq, lastCell_append, lastCell_append]
        rfl
  · simp only [List.length_append, List.length_cons]
    omega
  · apply only_free hCut.nodup
    intro q hq
    exact hPerm.mem_iff.mp (hLinked.only q hq)

theorem Linked.deleteAtIndex (hLinked : s.Linked cells values) (index : Int) :
    ∃ s', s.deleteAtIndex index = some s' ∧
      s'.Holds (if 0 ≤ index then values.eraseIdx index.toNat else values) := by
  have hSize := hLinked.size_eq
  have hLength := hLinked.length_eq
  by_cases hIn : 0 ≤ index ∧ index < s.size
  · obtain ⟨front, cell, back, rfl, hFront⟩ := exists_split
      (show index.toNat < cells.length by omega)
    rw [if_pos hIn.1]
    rcases List.eq_nil_or_concat' front with rfl | ⟨front, p, rfl⟩
    · obtain rfl : index = 0 := by simp at hFront; omega
      rw [Int.toNat_zero, List.eraseIdx_zero]
      exact hLinked.delete_head
    · rw [← List.append_cons] at hLinked
      obtain rfl : index = front.length + 1 := by simp at hFront; omega
      exact hLinked.delete_behind
  · have hOut : s.size = 0 ∨ index < 0 ∨ s.size ≤ index := by omega
    refine ⟨s, if_pos hOut, cells, ?_⟩
    split_ifs with hPos
    · rw [List.eraseIdx_of_length_le (by omega)]
      exact hLinked
    · exact hLinked

/-- Every permitted call is carried out as on a list of values. -/
theorem step_holds (state : MyLinkedList × List Int) (v : List Int × List Int) (call : Call)
    (hState : state.1.Holds v.1 ∧ state.2 = v.2) (hPermitted : Permitted state call) :
    ∃ state', step state call = some state' ∧ state'.1.Holds (spec v call).1 ∧
      state'.2 = (spec v call).2 := by
  obtain ⟨s, answers⟩ := state
  obtain ⟨values, answers'⟩ := v
  obtain ⟨⟨cells, hLinked⟩, rfl⟩ := hState
  cases call with
  | get index =>
      refine ⟨_, rfl, ?_, ?_⟩
      · rw [hLinked.get_eq hPermitted]
        exact ⟨cells, hLinked⟩
      · rw [hLinked.get_eq hPermitted]
        rfl
  | addAtHead val n =>
      obtain ⟨s', hEq, hNew⟩ := hLinked.addAtHead val hPermitted
      exact ⟨(s', answers), by rw [step, hEq, Option.map_some], ⟨_, hNew⟩, rfl⟩
  | addAtTail val n =>
      obtain ⟨s', hEq, hNew⟩ := hLinked.addAtTail val hPermitted
      exact ⟨(s', answers), by rw [step, hEq, Option.map_some], hNew, rfl⟩
  | addAtIndex index val n =>
      obtain ⟨s', hEq, hNew⟩ := hLinked.addAtIndex index val hPermitted
      exact ⟨(s', answers), by rw [step, hEq, Option.map_some], hNew, rfl⟩
  | deleteAtIndex index =>
      obtain ⟨s', hEq, hNew⟩ := hLinked.deleteAtIndex index
      exact ⟨(s', answers), by rw [step, hEq, Option.map_some], hNew, rfl⟩

/-- The nodes at 7 and 9 are deleted, and their addresses are used again. -/
def reuse : List Call :=
  [.addAtTail 3 7, .addAtHead 1 8, .addAtIndex 1 2 9, .deleteAtIndex 1, .deleteAtIndex 1,
    .addAtIndex 1 5 9, .addAtTail 6 7, .get 1, .get (-1), .get 4]

end MyLinkedList
end CppPerf.Lists
