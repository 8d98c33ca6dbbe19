import CppPerf.HashTable.Basic
import CppPerf.Semantics.Run
import CppPerf.Semantics.SetHistory
import CppPerf.Semantics.Vec

/-! The table of `HashTableBase.h`: one chain of nodes per bucket. Erased nodes
stay in their chain with their old data. A chain is the list of its nodes; the
data pointer of a linked node is never null, so a node carries the data
itself. `now` is what `time(0)` returns, `alloc` whether `malloc` succeeds. -/
namespace CppPerf.HashTable

open Indexed

structure HashElement (α : Type*) where
  pData : α
  bErased : Bool
  tLastAccess : Int
  tInsert : Int

namespace HashElement

variable {α : Type*}

/-- The node is not flagged as erased. -/
def live (e : HashElement α) : Bool := !e.bErased

end HashElement

structure HashTableBase (α : Type*) where
  iSize : Nat := 0
  pElements : Option (Vec (List (HashElement α))) := none
  iEntries : UInt32 := 0
  iCollisions : UInt32 := 0
  iMaxDepth : UInt32 := 0
  iCounts : Vec UInt32 := ⟨20, fun _ => 0⟩
  iNewItems : UInt32 := 0
  iErased : UInt32 := 0
  iReusedCount : UInt32 := 0
  iInsertErrors : UInt32 := 0

namespace HashTableBase

variable {α : Type*}

def reset (t : HashTableBase α) : HashTableBase α :=
  { t with
    iInsertErrors := 0, iEntries := 0, iCollisions := 0, iMaxDepth := 0, iNewItems := 0,
    iErased := 0, iReusedCount := 0, iCounts := ⟨20, fun _ => 0⟩ }

def hashInitialize (t : HashTableBase α) (iDesiredSize : Nat) (alloc : Bool) :
    HashTableBase α × Bool :=
  let t := { t.reset with iSize := calcSize iDesiredSize }
  if alloc then ({ t with pElements := some ⟨t.iSize, fun _ => []⟩ }, true)
  else ({ t with pElements := none }, false)

/-- `RemoveElement` counts nodes only that were not flagged before. -/
def removeElement (t : HashTableBase α) (e : HashElement α) : HashTableBase α × HashElement α :=
  if !e.bErased then
    ({ t with iErased := t.iErased + 1, iEntries := t.iEntries - 1 }, { e with bErased := true })
  else (t, e)

def size (t : HashTableBase α) : Nat := t.iEntries.toNat

/-- All nodes of the table, chain after chain. -/
def nodes (t : HashTableBase α) : List (HashElement α) :=
  match t.pElements with
  | none => []
  | some elements => (List.range elements.size).flatMap elements.get

/-- The loop of `traceHashCollision` over the indices that are left; `none`
when it reads behind the end of `iCounts`. -/
def totalLoop (iCounts : Vec UInt32) : List Nat → (iTotal : UInt32) → Option UInt32
  | [], iTotal => some iTotal
  | i :: rest, iTotal =>
      if i < iCounts.size then
        totalLoop iCounts rest (iTotal + UInt32.ofNat i * iCounts.get i)
      else none

/-- The total that is computed for the log, if there are entries. -/
def traceHashCollision (t : HashTableBase α) : Option (Option UInt32) :=
  if t.iEntries < 1 then some none
  else (totalLoop t.iCounts (List.range' 1 t.iMaxDepth.toNat) 0).map some

/-- `none` when the trace reads behind the end of `iCounts`. -/
def clear (t : HashTableBase α) : Option (HashTableBase α) :=
  match t.pElements with
  | none => some t.reset
  | some elements =>
      t.traceHashCollision.map fun _ =>
        { t.reset with pElements := some ⟨elements.size, fun _ => []⟩ }

variable [BEq α]

/-- The loop of `find`: skip erased nodes and other data. The node found gets
the access time. -/
def findLoop (pData : α) (now : Int) :
    List (HashElement α) → List (HashElement α) × Option α
  | [] => ([], none)
  | e :: rest =>
      if e.bErased || e.pData != pData then
        let (rest, found) := findLoop pData now rest
        (e :: rest, found)
      else ({ e with tLastAccess := now } :: rest, some e.pData)

/-- The loop of `erase`: the first node with equal data, erased or not. -/
def eraseLoop (t : HashTableBase α) (pData : α) :
    List (HashElement α) → HashTableBase α × List (HashElement α) × Bool
  | [] => (t, [], false)
  | e :: rest =>
      if e.pData == pData then
        let (t, e) := t.removeElement e
        (t, e :: rest, true)
      else
        let (t, rest, found) := eraseLoop t pData rest
        (t, e :: rest, found)

/-- Where the loop of `insert` leaves the chain. -/
inductive Scan where
  | matched (index : Nat)
  | finished (pErased : Option Nat) (iDepth : UInt32)

/-- The loop of `insert` from the node at `index` on. -/
def insertLoop (pData : α) :
    List (HashElement α) → (index : Nat) → (pErased : Option Nat) → (iDepth : UInt32) → Scan
  | [], _, pErased, iDepth => .finished pErased iDepth
  | e :: rest, index, pErased, iDepth =>
      if e.bErased then
        insertLoop pData rest (index + 1) (if pErased.isNone then some index else pErased)
          (iDepth + 1)
      else if e.pData == pData then .matched index
      else insertLoop pData rest (index + 1) pErased (iDepth + 1)

variable [Hashable α]

def bucketOf (t : HashTableBase α) (pData : α) : Nat := (hash pData).toNat % t.iSize

/-- The data of the node found, `none` for a null pointer. -/
def find (t : HashTableBase α) (pData : α) (now : Int) : HashTableBase α × Option α :=
  match t.pElements with
  | none => (t, none)
  | some elements =>
      if t.iSize = 0 then (t, none)
      else
        let (chain, found) := findLoop pData now (elements.get (t.bucketOf pData))
        ({ t with pElements := some (elements.set (t.bucketOf pData) chain) }, found)

/-- `erase(HASH_DATA*)`; `none` is the null pointer. -/
def erase (t : HashTableBase α) (pData : Option α) : HashTableBase α × Bool :=
  match t.pElements, pData with
  | some elements, some data =>
      if t.iSize = 0 then (t, false)
      else
        let (t', chain, found) := t.eraseLoop data (elements.get (t.bucketOf data))
        ({ t' with pElements := some (elements.set (t.bucketOf data) chain) }, found)
  | _, _ => (t, false)

/-- `insert(const HASH_DATA*, bool)`. The flag only says who owns the data of
a new node. The result is the data in the table and whether a node was made. -/
def insert (t : HashTableBase α) (pData : Option α) (alloc : Bool) (now : Int) :
    HashTableBase α × Option α × Bool :=
  match t.pElements, pData with
  | some elements, some data =>
      let iHashNumber := t.bucketOf data
      let chain := elements.get iHashNumber
      match insertLoop data chain 0 none 1 with
      | .matched index =>
          ({ t with
              pElements := some (elements.set iHashNumber
                (chain.modify index fun e => { e with pData := data })) },
            some data, false)
      | .finished (some index) _ =>
          ({ t with
              pElements := some (elements.set iHashNumber (chain.modify index fun _ =>
                { pData := data, bErased := false, tLastAccess := now, tInsert := now }))
              iEntries := t.iEntries + 1
              iErased := t.iErased - 1
              iReusedCount := t.iReusedCount + 1 },
            some data, false)
      | .finished none iDepth =>
          let t := { t with
            iEntries := t.iEntries + 1
            iCollisions := if chain.isEmpty then t.iCollisions else t.iCollisions + 1
            iMaxDepth := if t.iMaxDepth < iDepth then iDepth else t.iMaxDepth
            iCounts := if iDepth.toNat < t.iCounts.size then
                t.iCounts.set iDepth.toNat (t.iCounts.get iDepth.toNat + 1)
              else t.iCounts }
          if alloc then
            ({ t with
                pElements := some (elements.set iHashNumber (chain ++
                  [{ pData := data, bErased := false, tLastAccess := now, tInsert := now }]))
                iNewItems := t.iNewItems + 1 },
              some data, true)
          else
            ({ t with iInsertErrors := t.iInsertErrors + 1, iEntries := t.iEntries - 1 },
              none, false)
  | _, _ => (t, none, false)

open SetHistory Transition in
/-- A client call at a given time, with the history of the insertions and of
the erasures. Allocation succeeds. -/
def step : Step (HashTableBase α × List (Event α)) (Call α × Int)
  | (t, past), (.insert x, now) => some ((t.insert (some x) true now).1, .inserted x :: past)
  | (t, past), (.erase x, _) => some ((t.erase (some x)).1, .erased x :: past)
  | (t, past), (.find x, now) => some ((t.find x now).1, past)

/-- The depth that `insert` records: one more than the nodes of the chain, when
all of them are live and have other data. -/
def recordedDepth (t : HashTableBase α) (pData : Option α) : Option Nat :=
  match t.pElements, pData with
  | some elements, some data =>
      let chain := elements.get (t.bucketOf data)
      if chain.all fun e => e.live && e.pData != data then some (chain.length + 1) else none
  | _, _ => none

/-- An insertion, whose allocation may fail, or an erasure. -/
inductive Update (α : Type*) where
  | insert (pData : Option α) (alloc : Bool) (now : Int)
  | erase (pData : Option α)

open Transition in
/-- A table with the depths that its insertions have recorded. -/
def update : Step (HashTableBase α × List Nat) (Update α)
  | (t, depths), .insert pData alloc now =>
      some ((t.insert pData alloc now).1, (t.recordedDepth pData).toList ++ depths)
  | (t, depths), .erase pData => some ((t.erase pData).1, depths)

end HashTableBase
end CppPerf.HashTable
