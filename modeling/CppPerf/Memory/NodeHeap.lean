import CppPerf.Memory.LinkedList
import Mathlib.Data.List.Nodup
import Mathlib.Data.List.Perm.Basic
import Mathlib.Logic.Function.Basic

/-! A heap of list nodes at numbered addresses, with the null pointer at zero.
An address can be handed out again after the node there was deleted. An access
to a node that is not allocated is remembered as undefined behaviour. -/
namespace Heap

open LinkedList

structure NodeHeap (T : Type*) where
  data : Nat → T
  next : Nat → Nat
  allocated : Nat → Bool
  undefined : Bool

namespace NodeHeap

variable {T : Type*}

def initial [Inhabited T] : NodeHeap T := ⟨fun _ => default, fun _ => 0, fun _ => false, false⟩

def touch (h : NodeHeap T) (p : Nat) : NodeHeap T :=
  { h with undefined := h.undefined || !h.allocated p }

/-- A new node without a successor, at an address that the allocator chooses. -/
def create (h : NodeHeap T) (p : Nat) (t : T) : NodeHeap T :=
  { h with
    data := Function.update h.data p t
    next := Function.update h.next p 0
    allocated := Function.update h.allocated p true }

def storeNext (h : NodeHeap T) (p q : Nat) : NodeHeap T :=
  { h.touch p with next := Function.update h.next p q }

def free (h : NodeHeap T) (p : Nat) : NodeHeap T :=
  { h.touch p with allocated := Function.update h.allocated p false }

/-- One step of the deletion of a list by a destructor that deletes the next
node first. `stack` are the nodes whose destructors have been entered, and
`cur` is the pointer to be deleted next. -/
def destroyStep (h : NodeHeap T) (stack : List Nat) (cur : Nat) :
    NodeHeap T × Option (List Nat × Nat) :=
  if cur ≠ 0 then (h.touch cur, some (cur :: stack, h.next cur))
  else
    match stack with
    | p :: stack => (h.free p, some (stack, 0))
    | [] => (h, none)

/-- These nodes are allocated and pairwise different, and no access so far was
undefined. -/
structure Owns (h : NodeHeap T) (cells : List Nat) : Prop where
  defined : h.undefined = false
  nodup : cells.Nodup
  allocated : ∀ p ∈ cells, h.allocated p = true
  nonnull : ∀ p ∈ cells, p ≠ 0

theorem initial_owns [Inhabited T] : (initial : NodeHeap T).Owns [] where
  defined := rfl
  nodup := List.nodup_nil
  allocated _ hp := absurd hp List.not_mem_nil
  nonnull _ hp := absurd hp List.not_mem_nil

variable {h : NodeHeap T} {cells other : List Nat} {n p : Nat}

namespace Owns

theorem perm (ho : h.Owns cells) (hPerm : cells.Perm other) : h.Owns other where
  defined := ho.defined
  nodup := hPerm.nodup_iff.mp ho.nodup
  allocated p hp := ho.allocated p (hPerm.mem_iff.mpr hp)
  nonnull p hp := ho.nonnull p (hPerm.mem_iff.mpr hp)

theorem head_not_mem (ho : h.Owns (p :: cells)) : p ∉ cells := (List.nodup_cons.mp ho.nodup).1

theorem tail (ho : h.Owns (p :: cells)) : h.Owns cells where
  defined := ho.defined
  nodup := (List.nodup_cons.mp ho.nodup).2
  allocated q hq := ho.allocated q (List.mem_cons_of_mem _ hq)
  nonnull q hq := ho.nonnull q (List.mem_cons_of_mem _ hq)

theorem touch_eq (ho : h.Owns cells) (hp : p ∈ cells) : h.touch p = h := by
  simp [touch, ho.allocated p hp]

theorem not_mem (ho : h.Owns cells) (hn : h.allocated n = false) : n ∉ cells := by
  intro hMem
  rw [ho.allocated n hMem] at hn
  cases hn

theorem create (ho : h.Owns cells) (hn : h.allocated n = false) (hNull : n ≠ 0) (t : T) :
    (h.create n t).Owns (n :: cells) where
  defined := ho.defined
  nodup := List.nodup_cons.mpr ⟨ho.not_mem hn, ho.nodup⟩
  allocated p hp := by
    by_cases hEq : p = n
    · simp [NodeHeap.create, hEq]
    · have hOld := ho.allocated p (List.mem_of_ne_of_mem hEq hp)
      simp [NodeHeap.create, hEq, hOld]
  nonnull p hp := by
    rcases List.mem_cons.mp hp with rfl | hOld
    · exact hNull
    · exact ho.nonnull p hOld

theorem storeNext (ho : h.Owns cells) (hp : p ∈ cells) (q : Nat) :
    (h.storeNext p q).Owns cells := by
  refine ⟨?_, ho.nodup, ho.allocated, ho.nonnull⟩
  rw [NodeHeap.storeNext, ho.touch_eq hp]
  exact ho.defined

theorem free (ho : h.Owns (p :: cells)) : (h.free p).Owns cells where
  defined := by
    rw [NodeHeap.free, ho.touch_eq List.mem_cons_self]
    exact ho.defined
  nodup := ho.tail.nodup
  allocated q hq := by
    have hne : q ≠ p := by
      rintro rfl
      exact ho.head_not_mem hq
    simp only [NodeHeap.free, Function.update_of_ne hne]
    exact ho.allocated q (List.mem_cons_of_mem _ hq)
  nonnull q hq := ho.nonnull q (List.mem_cons_of_mem _ hq)

end Owns

theorem next_storeNext_self (h : NodeHeap T) (p q : Nat) : (h.storeNext p q).next p = q :=
  Function.update_self ..

theorem next_storeNext_of_ne (h : NodeHeap T) {p q r : Nat} (hne : r ≠ p) :
    (h.storeNext p q).next r = h.next r :=
  Function.update_of_ne hne ..

/-- A list that does not go through the node is not affected by a store to it. -/
theorem isList_storeNext {start q : Nat} (hList : IsList h.next 0 start cells) (hp : p ∉ cells) :
    IsList (h.storeNext p q).next 0 start cells := by
  apply hList.congr
  intro cell hCell
  apply next_storeNext_of_ne
  rintro rfl
  exact hp hCell

/-- A node in front of a list. -/
theorem isList_link {q : Nat} (hList : IsList h.next 0 q cells) (hp : p ∉ cells) (hNull : p ≠ 0) :
    IsList (h.storeNext p q).next 0 p (p :: cells) := by
  refine ⟨rfl, hNull, ?_⟩
  rw [next_storeNext_self]
  exact isList_storeNext hList hp

theorem isList_create {start : Nat} {t : T} (hList : IsList h.next 0 start cells)
    (hp : p ∉ cells) : IsList (h.create p t).next 0 start cells := by
  apply hList.congr
  intro cell hCell
  apply Function.update_of_ne
  rintro rfl
  exact hp hCell

theorem map_data_create {t : T} (hp : p ∉ cells) :
    cells.map (h.create p t).data = cells.map h.data := by
  apply List.map_congr_left
  intro cell hCell
  apply Function.update_of_ne
  rintro rfl
  exact hp hCell

/-- The deletion of a list frees its nodes and touches no others. -/
theorem destroyStep_spec {stack rest others : List Nat} {cur : Nat}
    (ho : h.Owns (stack ++ rest ++ others)) (hList : IsList h.next 0 cur rest)
    {h' : NodeHeap T} {left : Option (List Nat × Nat)}
    (hStep : h.destroyStep stack cur = (h', left)) :
    h'.next = h.next ∧ h'.data = h.data ∧
      match left with
      | none => stack ++ rest = [] ∧ h'.Owns others
      | some (stack', cur') => ∃ rest', IsList h'.next 0 cur' rest' ∧
          h'.Owns (stack' ++ rest' ++ others) := by
  unfold destroyStep at hStep
  cases rest with
  | cons cell rest =>
      obtain ⟨rfl, hNull, hRest⟩ := hList
      rw [if_pos hNull, ho.touch_eq (by simp)] at hStep
      cases hStep
      refine ⟨rfl, rfl, rest, hRest, ho.perm ?_⟩
      rw [List.cons_append]
      exact (List.perm_middle).append_right others
  | nil =>
      obtain rfl : cur = 0 := hList
      rw [if_neg (not_not.mpr rfl)] at hStep
      rw [List.append_nil] at ho
      cases stack with
      | nil =>
          cases hStep
          exact ⟨rfl, rfl, rfl, ho⟩
      | cons p stack =>
          cases hStep
          refine ⟨rfl, rfl, [], rfl, ?_⟩
          rw [List.append_nil]
          exact ho.free

end NodeHeap
end Heap
