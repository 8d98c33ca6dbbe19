import Mathlib.Data.Option.Basic
import Mathlib.Logic.Function.Basic
import Mathlib.Tactic.Common

/-! The objects of a program, named by the elements of any type, together with
the identity of the next heap block. Identities are handed out in increasing
order, so a new block is never one that some object already knows. -/
namespace Heap

structure Objects (ι Obj : Type*) where
  get : ι → Option Obj
  next : Nat

namespace Objects

variable {ι Obj : Type*}

/-- No object has been constructed yet. -/
def empty : Objects ι Obj := ⟨fun _ => none, 0⟩

/-- The property holds of every object. -/
def All (P : Obj → Prop) (w : Objects ι Obj) : Prop := ∀ i o, w.get i = some o → P o

theorem All.mono {P Q : Obj → Prop} {w : Objects ι Obj} (h : w.All P) (hImp : ∀ o, P o → Q o) :
    w.All Q := fun i o ho => hImp o (h i o ho)

/-- What an allocation returns: the next identity, unless it fails. -/
def alloc (w : Objects ι Obj) (ok : Bool) : Option Nat := if ok then some w.next else none

/-- What the allocations of one call return, in their order. -/
def allocs (w : Objects ι Obj) (ok : Nat → Bool) (k : Nat) : Option Nat :=
  if ok k then some (w.next + k) else none

theorem alloc_lt {w : Objects ι Obj} {ok : Bool} {id : Nat} (h : w.alloc ok = some id) :
    id < w.next + 1 := by
  unfold alloc at h
  split_ifs at h
  obtain rfl := Option.some.inj h
  omega

theorem allocs_lt {w : Objects ι Obj} {ok : Nat → Bool} {k n id : Nat} (hk : k < n)
    (h : w.allocs ok k = some id) : id < w.next + n := by
  unfold allocs at h
  split_ifs at h
  obtain rfl := Option.some.inj h
  omega

/-- Identities below `next + n` have been handed out. -/
def advance (w : Objects ι Obj) (n : Nat) : Objects ι Obj := { w with next := w.next + n }

variable [DecidableEq ι]

def set (w : Objects ι Obj) (i : ι) (o : Obj) : Objects ι Obj :=
  { w with get := Function.update w.get i (some o) }

@[simp] theorem get_set_self (w : Objects ι Obj) (i : ι) (o : Obj) :
    (w.set i o).get i = some o := by
  simp [set]

theorem get_set_of_ne (w : Objects ι Obj) {i j : ι} (o : Obj) (h : j ≠ i) :
    (w.set i o).get j = w.get j := by
  simp [set, h]

/-- A new value of one object leaves the property of the others alone. -/
theorem All.set {P : Obj → Prop} {w : Objects ι Obj} (h : w.All P) (i : ι) {o : Obj} (ho : P o) :
    (w.set i o).All P := by
  intro j p hp
  by_cases hj : j = i
  · rw [hj, get_set_self, Option.some.injEq] at hp
    rwa [← hp]
  · rw [w.get_set_of_ne o hj] at hp
    exact h j p hp

end Objects
end Heap
