import CppPerf.Semantics.Run
import CppPerf.Semantics.Vec

/-! The reference-counted pointer of `SharedPtr.cpp`, with one operation at a
time. The count is an `atomic<int>`, so it wraps around. Addresses are numbers
and the null pointer is zero; the address of something that was deleted can be
handed out again. -/
namespace CppPerf.Ownership

open Indexed

structure SharedPtr where
  naked : Nat := 0
  counter : Nat := 0
deriving DecidableEq

namespace SharedPtr

/-- The handles in the order of their construction, with `none` for those that
were destroyed, the addresses that have an object, and the counts in the
control blocks. An access to what does not exist is remembered. -/
structure World where
  handles : Vec (Option SharedPtr)
  objects : Nat → Bool
  refs : Nat → Option Int32
  undefined : Bool

inductive Action where
  /-- From a raw pointer, which is null or that of a new object. The control
  block is allocated at the given address. -/
  | construct (data counter : Nat)
  | copyConstruct (other : Nat)
  | moveConstruct (other : Nat)
  | copyAssign (this other : Nat)
  | moveAssign (this other : Nat)
  | destroy (this : Nat)

namespace World

def initial : World := ⟨Vec.empty none, fun _ => false, fun _ => none, false⟩

def handle (w : World) (i : Nat) : SharedPtr := (w.handles.get i).getD {}

def setHandle (w : World) (i : Nat) (h : SharedPtr) : World :=
  { w with handles := w.handles.set i (some h) }

def pushHandle (w : World) (h : SharedPtr) : World :=
  { w with handles := w.handles.push (some h) }

/-- `counter->count++` and `counter->count--`. -/
def addCount (w : World) (counter : Nat) (n : Int32) : World :=
  match w.refs counter with
  | none => { w with undefined := true }
  | some count => { w with refs := Function.update w.refs counter (some (count + n)) }

/-- `delete naked`. -/
def deleteObject (w : World) (naked : Nat) : World :=
  { w with
    objects := Function.update w.objects naked false
    undefined := w.undefined || !w.objects naked }

/-- `delete counter`. -/
def deleteRef (w : World) (counter : Nat) : World :=
  { w with
    refs := Function.update w.refs counter none
    undefined := w.undefined || (w.refs counter).isNone }

def deleteMe (w : World) (this : Nat) : World :=
  let h := w.handle this
  if h.naked ≠ 0 then
    let w :=
      match w.refs h.counter with
      | none => { w with undefined := true }
      | some count =>
          if count = 1 then (w.deleteObject h.naked).deleteRef h.counter
          else w.addCount h.counter (-1)
    w.setHandle this {}
  else w

def copy (w : World) (this other : Nat) : World :=
  let h := w.handle other
  let w := w.setHandle this h
  if h.naked ≠ 0 then w.addCount h.counter 1 else w

def copyConstruct (w : World) (other : Nat) : World :=
  let h := w.handle other
  if h.naked ≠ 0 then (w.pushHandle h).addCount h.counter 1 else w.pushHandle {}

def moveConstruct (w : World) (other : Nat) : World :=
  (w.pushHandle (w.handle other)).setHandle other {}

def copyAssign (w : World) (this other : Nat) : World :=
  if this ≠ other ∧ (w.handle this).naked ≠ (w.handle other).naked then
    (w.deleteMe this).copy this other
  else w

def moveAssign (w : World) (this other : Nat) : World :=
  if this ≠ other then
    let w :=
      if (w.handle this).naked = (w.handle other).naked then
        if (w.handle this).naked ≠ 0 then w.addCount (w.handle this).counter (-1) else w
      else
        let w := w.deleteMe this
        w.setHandle this (w.handle other)
    w.setHandle other {}
  else w

def destroy (w : World) (this : Nat) : World :=
  let w := w.deleteMe this
  { w with handles := w.handles.set this none }

/-- The handle has been constructed and not been destroyed. -/
def alive (w : World) (i : Nat) : Bool := i < w.handles.size && (w.handles.get i).isSome

def step (w : World) : Action → Option World
  | .construct data counter =>
      if data = 0 then some (w.pushHandle {})
      else if w.objects data = false ∧ counter ≠ 0 ∧ w.refs counter = none then
        some ({ w with
          objects := Function.update w.objects data true
          refs := Function.update w.refs counter (some 1) }.pushHandle ⟨data, counter⟩)
      else none
  | .copyConstruct other => if w.alive other then some (w.copyConstruct other) else none
  | .moveConstruct other => if w.alive other then some (w.moveConstruct other) else none
  | .copyAssign this other =>
      if w.alive this ∧ w.alive other then some (w.copyAssign this other) else none
  | .moveAssign this other =>
      if w.alive this ∧ w.alive other then some (w.moveAssign this other) else none
  | .destroy this => if w.alive this then some (w.destroy this) else none

end World
end SharedPtr
end CppPerf.Ownership
