import CppPerf.Memory.NodeHeap
import CppPerf.Semantics.Run

/-! The recycler of `SlistEx.h` in the hands of one thread. `unsigned long` has
32 bits. The addresses of new items, and whether `new` throws, are chosen by
the environment. -/
namespace CppPerf.Queue

open Heap

/-- `SListItem<T>` begins with its list entry, so an item and its entry have
one address. -/
structure MemoryRecycler (T : Type*) where
  heap : NodeHeap T
  m_head : Nat
  currList : Nat
  m_NewedItems : UInt32
  m_maxItems : UInt32
  m_exceedMaxCount : UInt32
  m_failedCount : UInt32
  m_exceedMaxSleepTimeTotal : UInt32
  m_NumItemsGet : UInt32
  m_NumItemsRecycled : UInt32

/-- How a call ends: with an item, with the null pointer, with an exception. -/
inductive Got where
  | item (p : Nat)
  | null
  | thrown

namespace MemoryRecycler

variable {T : Type*}

/-- `InterlockedPushEntrySList` on `m_head`. -/
def pushEntry (r : MemoryRecycler T) (entry : Nat) : MemoryRecycler T :=
  { r with heap := r.heap.storeNext entry r.m_head, m_head := entry }

def recycleItem (r : MemoryRecycler T) (item : Nat) : MemoryRecycler T :=
  { r with m_NumItemsRecycled := r.m_NumItemsRecycled + 1 }.pushEntry item

/-- `new SListItem<T>()`, at the given address or with an exception. -/
def newItem [Inhabited T] (r : MemoryRecycler T) : Option Nat → MemoryRecycler T × Got
  | some p => ({ r with heap := r.heap.create p default }, .item p)
  | none => (r, .thrown)

/-- The loop of the constructor, for items at the given addresses. -/
def preallocate [Inhabited T] (r : MemoryRecycler T) : List Nat → Option (MemoryRecycler T)
  | [] => some r
  | p :: rest =>
      if p ≠ 0 ∧ r.heap.allocated p = false then
        let r := { r with heap := r.heap.create p default }
        preallocate ({ r with m_NewedItems := r.m_NewedItems + 1 }.recycleItem p) rest
      else none

/-- The members before the loop of the constructor. The two counters that it
sets at its end have a value here only because they must have one. -/
def empty [Inhabited T] (maxmemsize : Nat) : MemoryRecycler T where
  heap := NodeHeap.initial
  m_head := 0
  currList := 0
  m_NewedItems := 0
  m_maxItems := UInt32.ofNat maxmemsize
  m_exceedMaxCount := 0
  m_failedCount := 0
  m_exceedMaxSleepTimeTotal := 0
  m_NumItemsGet := 0
  m_NumItemsRecycled := 0

/-- The number of the addresses is `initmemsize`. -/
def construct [Inhabited T] (maxmemsize : Nat) (items : List Nat) : Option (MemoryRecycler T) :=
  ((empty maxmemsize).preallocate items).map fun r =>
    { r with m_NumItemsGet := 0, m_NumItemsRecycled := 0 }

/-- `currList` is refilled with all that has been recycled. -/
def flush (r : MemoryRecycler T) : MemoryRecycler T := { r with currList := r.m_head, m_head := 0 }

/-- The first item of `currList` is handed out. -/
def takeFirst (r : MemoryRecycler T) : MemoryRecycler T × Got :=
  ({ r with
     heap := r.heap.touch r.currList
     currList := r.heap.next r.currList
     m_NumItemsGet := r.m_NumItemsGet + 1 }, .item r.currList)

/-- The loop that waits for items to come back, with the turns that are left. -/
def waitForItem (r : MemoryRecycler T) : Nat → MemoryRecycler T × Got
  | 0 =>
      ({ r with
         m_exceedMaxSleepTimeTotal := r.m_exceedMaxSleepTimeTotal + 100
         m_failedCount := r.m_failedCount + 1 }, .null)
  | left + 1 =>
      let r := r.flush
      if r.currList = 0 then r.waitForItem left
      else
        let sSleep := UInt32.ofNat (100 - (left + 1))
        { r with m_exceedMaxSleepTimeTotal := r.m_exceedMaxSleepTimeTotal + sSleep }.takeFirst

def getNewItem [Inhabited T] (r : MemoryRecycler T) (alloc : Option Nat) :
    MemoryRecycler T × Got :=
  let r := if r.currList = 0 then r.flush else r
  if r.currList = 0 then
    if r.m_NewedItems ≥ r.m_maxItems then
      { r with m_exceedMaxCount := r.m_exceedMaxCount + 1 }.waitForItem 100
    else
      { r with
        m_NewedItems := r.m_NewedItems + 1
        m_NumItemsGet := r.m_NumItemsGet + 1 }.newItem alloc
  else r.takeFirst

def popItem [Inhabited T] (r : MemoryRecycler T) (alloc : Option Nat) : MemoryRecycler T × Got :=
  if r.m_head ≠ 0 then
    ({ r with heap := r.heap.touch r.m_head, m_head := r.heap.next r.m_head }, .item r.m_head)
  else if r.m_NewedItems > r.m_maxItems then (r, .null)
  else { r with m_NewedItems := r.m_NewedItems + 1 }.newItem alloc

def clearStats (r : MemoryRecycler T) : MemoryRecycler T :=
  { r with
    m_exceedMaxCount := 0, m_exceedMaxSleepTimeTotal := 0, m_failedCount := 0
    m_NumItemsGet := 0, m_NumItemsRecycled := 0 }

/-- The figure that `getStats` reports as available. -/
def available (r : MemoryRecycler T) : UInt32 :=
  r.m_NumItemsRecycled + r.m_NewedItems - r.m_NumItemsGet

/-- A loop of `size`, with fuel. -/
def countEntries (next : Nat → Nat) : Nat → Nat → UInt32 → Option UInt32
  | 0, pE, count => if pE = 0 then some count else none
  | fuel + 1, pE, count =>
      if pE = 0 then some count else countEntries next fuel (next pE) (count + 1)

def size (r : MemoryRecycler T) (fuel : Nat) : Option UInt32 :=
  (countEntries r.heap.next fuel r.currList 0).bind fun count =>
    countEntries r.heap.next fuel r.m_head count

/-- The loop of `reset`, with fuel. -/
def resetLoop (r : MemoryRecycler T) : Nat → Nat → Option (MemoryRecycler T)
  | 0, pE => if pE = 0 then some { r with currList := 0 } else none
  | fuel + 1, pE =>
      if pE = 0 then some { r with currList := 0 }
      else
        let next := r.heap.next pE
        let r := { r with heap := r.heap.touch pE, currList := pE }
        (r.pushEntry pE).resetLoop fuel next

def reset (r : MemoryRecycler T) (fuel : Nat) : Option (MemoryRecycler T) :=
  r.resetLoop fuel r.currList

/-- The recycler and its caller. `hands` are the items handed out and not
recycled yet, and `created` all items there ever were. -/
structure World (T : Type*) where
  r : MemoryRecycler T
  hands : List Nat
  created : List Nat

inductive Action where
  | getNewItem (alloc : Option Nat)
  | popItem (alloc : Option Nat)
  | recycleItem (item : Nat)
  | reset
  | clearStats

namespace World

/-- The item goes to the caller. An item at an address that had none is new. -/
def receive (w : World T) : MemoryRecycler T × Got → World T
  | (r, .item p) =>
      { r := r
        hands := p :: w.hands
        created := if w.r.heap.allocated p then w.created else p :: w.created }
  | (r, .null) => { w with r := r }
  | (r, .thrown) => { w with r := r }

/-- What `new` returns is an address without an item. -/
def CanAllocate (w : World T) (alloc : Option Nat) : Prop :=
  ∀ p ∈ alloc, p ≠ 0 ∧ w.r.heap.allocated p = false

instance (w : World T) (alloc : Option Nat) : Decidable (w.CanAllocate alloc) := by
  unfold CanAllocate
  infer_instance

/-- The loops of `reset` and `size` have fuel for every item there is. -/
def step [Inhabited T] (w : World T) : Action → Option (World T)
  | .getNewItem alloc =>
      if w.CanAllocate alloc then some (w.receive (w.r.getNewItem alloc)) else none
  | .popItem alloc =>
      if w.CanAllocate alloc then some (w.receive (w.r.popItem alloc)) else none
  | .recycleItem item =>
      if item ∈ w.hands then
        some { w with r := w.r.recycleItem item, hands := w.hands.erase item }
      else none
  | .reset => (w.r.reset w.created.length).map fun r => { w with r := r }
  | .clearStats => some { w with r := w.r.clearStats }

end World
end MemoryRecycler
end CppPerf.Queue
