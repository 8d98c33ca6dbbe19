import Mathlib.Tactic.Common

/-! The batching buffer of `dualBuffer.hpp`: blocks of records in a queue, and
five counters that mirror it. Every call runs under the lock from its beginning
to its end. `MEM_CHECK` and `TEST_SIMPLE` are not defined. -/
namespace CppPerf.Queue

def MEM_BLOCK_SIZE : UInt32 := 8192

def szTAL4Format : String := "TAL4"

structure QDATA where
  pData : Option Nat
  iSize : UInt32
  iRec : UInt32
  format : String := szTAL4Format

/-- What the buffer uses of `SQF_HANDLE`, which the repository does not have,
and of the blocks that are appended to a handle. -/
structure SqfApi (Handle Block : Type*) where
  fresh : Handle
  attach : Handle → Nat → UInt32 → Handle
  size : Handle → UInt32
  num_messages : Handle → UInt32
  transfer : Handle → Option Nat × Handle
  clear : Handle → Handle
  append : Handle → Block → Handle
  block_size_ : Block → UInt32

/-- A block of records at an address, with its record count as a `UINT32`. -/
structure TAL4_HDR where
  address : Nat
  dwSize : UInt32
  wNumRecords : UInt32

structure DataBatchingBuffer (Handle : Type*) where
  currSqf : Handle
  dataQueue : List QDATA := []
  iLastTickCount : UInt32
  dwUpdateInterval : UInt32
  dwDrop : UInt32 := 0
  dwSleep : UInt32 := 0
  dwBad1 : UInt32 := 0
  dwBad2 : UInt32 := 0
  dwMaxAllowedQSize : UInt32
  dwQSize : UInt32 := 0
  dwMaxQSize : UInt32 := 0
  dwMaxQRec : UInt32 := 0
  dwTotalIn : UInt32 := 0
  dwTotalOut : UInt32 := 0
  dwTotalInRec : UInt32 := 0
  dwTotalOutRec : UInt32 := 0
  sqfMem : Option Nat

namespace DataBatchingBuffer

variable {Handle Block : Type*} (api : SqfApi Handle Block)

/-- `new char[size]` with the given outcome. -/
def allocMemChunk (s : DataBatchingBuffer Handle) (alloc : Option Nat) :
    DataBatchingBuffer Handle × Option Nat :=
  match alloc with
  | some pRaw => (s, some pRaw)
  | none => ({ s with dwBad1 := s.dwBad1 + 1 }, none)

def allocMemSQF (s : DataBatchingBuffer Handle) (alloc : Option Nat) :
    DataBatchingBuffer Handle × Bool :=
  match s.allocMemChunk alloc with
  | (s, none) => ({ s with sqfMem := none }, false)
  | (s, some pRaw) =>
      ({ s with sqfMem := some pRaw, currSqf := api.attach s.currSqf pRaw MEM_BLOCK_SIZE }, true)

def clearStats1 (s : DataBatchingBuffer Handle) : DataBatchingBuffer Handle :=
  { s with dwMaxQSize := 0, dwMaxQRec := 0, dwSleep := 0, dwDrop := 0, dwBad1 := 0, dwBad2 := 0 }

def clearStats2 (s : DataBatchingBuffer Handle) : DataBatchingBuffer Handle :=
  { s with dwQSize := 0, dwTotalIn := 0, dwTotalOut := 0, dwTotalInRec := 0, dwTotalOutRec := 0 }

/-- The constructor at the given tick count. `xcl` is the configuration, if it
is valid: a value for a name and a default. -/
def construct (now : UInt32) (xcl : Option (String → UInt32 → UInt32)) (alloc : Option Nat) :
    DataBatchingBuffer Handle :=
  let s : DataBatchingBuffer Handle :=
    { currSqf := api.fresh
      iLastTickCount := now
      dwUpdateInterval := xcl.elim 10 fun get => get "UpdateInterval" 10
      dwMaxAllowedQSize := xcl.elim 20000 fun get => get "ConvDualBufMaxQueue" 20000
      sqfMem := none }
  (s.allocMemSQF api alloc).1.clearStats1.clearStats2

def empty (s : DataBatchingBuffer Handle) : Bool :=
  s.dwTotalIn == s.dwTotalOut && s.dwQSize == 0

/-- The back-pressure test of the functions that queue a block. -/
def overLimit (s : DataBatchingBuffer Handle) : Bool :=
  decide (s.dwMaxAllowedQSize < s.dwTotalInRec - s.dwTotalOutRec)

/-- A block goes to the end of the queue and into the counters. -/
def pushBack (s : DataBatchingBuffer Handle) (data : QDATA) : DataBatchingBuffer Handle :=
  { s with
    dwTotalIn := s.dwTotalIn + 1
    dwTotalInRec := s.dwTotalInRec + data.iRec
    dwQSize := s.dwQSize + 1
    dataQueue := s.dataQueue ++ [data] }

/-- `num_messages()` is read from the block that is being queued. -/
def add2Queue (s : DataBatchingBuffer Handle) : DataBatchingBuffer Handle :=
  if s.overLimit then
    { s with dwDrop := s.dwDrop + api.num_messages s.currSqf, currSqf := api.clear s.currSqf }
  else if api.size s.currSqf < 5 ∨ MEM_BLOCK_SIZE < api.size s.currSqf then
    { s with dwBad2 := s.dwBad2 + 1, currSqf := api.clear s.currSqf }
  else
    let queued := s.pushBack
      { pData := (api.transfer s.currSqf).1
        iSize := api.size s.currSqf
        iRec := api.num_messages s.currSqf }
    { queued with
      currSqf := (api.transfer s.currSqf).2
      sqfMem := none
      dwBad2 :=
        if queued.dwQSize.toNat ≠ queued.dataQueue.length then s.dwBad2 + 1 else s.dwBad2 }

/-- `bSend(currSize, newsize, now)` -/
def bSend (s : DataBatchingBuffer Handle) (currSize newsize now : UInt32) : Bool :=
  MEM_BLOCK_SIZE < currSize + newsize ||
    (s.dwUpdateInterval < now - s.iLastTickCount && 4 < currSize)

/-- `bSend(currSize)` at the given tick count. -/
def bSendLast (s : DataBatchingBuffer Handle) (currSize now : UInt32) : Bool :=
  4 < currSize && s.dwUpdateInterval < now - s.iLastTickCount

def heartbeat (s : DataBatchingBuffer Handle) (now : UInt32) : DataBatchingBuffer Handle :=
  if s.bSendLast (api.size s.currSqf) now then s.add2Queue api else s

/-- The loop of `queueWait` with `left` rounds to go. -/
def queueWaitLoop (s : DataBatchingBuffer Handle) : (left : Nat) → DataBatchingBuffer Handle × Bool
  | 0 => (s, false)
  | left + 1 =>
      let s := { s with dwSleep := s.dwSleep + 1 }
      if s.dwTotalInRec - s.dwTotalOutRec < s.dwMaxAllowedQSize then (s, true)
      else queueWaitLoop s left

def queueWait (s : DataBatchingBuffer Handle) : DataBatchingBuffer Handle × Bool :=
  s.queueWaitLoop 10

/-- The wait that both functions for a TAL4 block begin with, if there is one. -/
def waitForRoom (s : DataBatchingBuffer Handle) : DataBatchingBuffer Handle × Bool :=
  if s.overLimit then s.queueWait else (s, true)

def addTal4NoBatch (s : DataBatchingBuffer Handle) (pTal4 : TAL4_HDR) (alloc : Option Nat) :
    DataBatchingBuffer Handle :=
  match s.waitForRoom with
  | (s, false) => { s with dwDrop := s.dwDrop + pTal4.wNumRecords }
  | (s, true) =>
      match s.allocMemChunk alloc with
      | (s, none) => s
      | (s, some pTal4New) =>
          s.pushBack { pData := some pTal4New, iSize := pTal4.dwSize, iRec := pTal4.wNumRecords }

def addTal4AsIs (s : DataBatchingBuffer Handle) (pTal4 : TAL4_HDR) :
    DataBatchingBuffer Handle × Bool :=
  match s.waitForRoom with
  | (s, false) => ({ s with dwDrop := s.dwDrop + pTal4.wNumRecords }, false)
  | (s, true) =>
      (s.pushBack
        { pData := some pTal4.address, iSize := pTal4.dwSize, iRec := pTal4.wNumRecords }, true)

/-- The first part of `addDataSqf`: make room for a block of `newsize` bytes. -/
def sendFull (s : DataBatchingBuffer Handle) (newsize now : UInt32) : DataBatchingBuffer Handle :=
  if s.bSend (api.size s.currSqf) newsize now then s.add2Queue api else s

/-- The second part: the time of the first update. -/
def markStart (s : DataBatchingBuffer Handle) (now : UInt32) : DataBatchingBuffer Handle :=
  if api.size s.currSqf ≤ 4 then { s with iLastTickCount := now } else s

/-- The third part: memory for the current block. -/
def ensureMem (s : DataBatchingBuffer Handle) (alloc : Option Nat) :
    DataBatchingBuffer Handle × Bool :=
  if s.sqfMem = none then s.allocMemSQF api alloc else (s, true)

def addDataSqf (s : DataBatchingBuffer Handle) (sqf : Block) (now : UInt32)
    (alloc : Option Nat) : DataBatchingBuffer Handle :=
  match ((s.sendFull api (api.block_size_ sqf) now).markStart api now).ensureMem api alloc with
  | (s, false) => s
  | (s, true) => { s with currSqf := api.append s.currSqf sqf }

/-- The high-water marks of a call that takes from the queue. -/
def updateMax (s : DataBatchingBuffer Handle) : DataBatchingBuffer Handle :=
  if s.dwMaxQSize < s.dwQSize then
    let QR := s.dwTotalInRec - s.dwTotalOutRec
    { s with
      dwMaxQSize := s.dwQSize
      dwMaxQRec := if s.dwMaxQRec < QR then QR else s.dwMaxQRec }
  else s

/-- Count one block and its records as taken out. -/
def countOut (s : DataBatchingBuffer Handle) (item : QDATA) : DataBatchingBuffer Handle :=
  { s with dwTotalOut := s.dwTotalOut + 1, dwTotalOutRec := s.dwTotalOutRec + item.iRec }

def processData (s : DataBatchingBuffer Handle) : DataBatchingBuffer Handle × QDATA :=
  if s.dwTotalOut = s.dwTotalIn ∨ s.dwQSize = 0 then (s, { pData := none, iSize := 0, iRec := 0 })
  else
    match s.updateMax.dataQueue with
    | [] => (s.updateMax, { pData := none, iSize := 0, iRec := 0 })
    | qData :: rest =>
        ({ s.updateMax.countOut qData with
            dataQueue := rest
            dwQSize := s.updateMax.dwQSize - 1 }, qData)

/-- Also the list of the caller afterwards. -/
def processDataAll (s : DataBatchingBuffer Handle) (dList : List QDATA) :
    DataBatchingBuffer Handle × List QDATA × Bool :=
  if s.dwTotalOut = s.dwTotalIn ∨ s.dwQSize = 0 then (s, dList, false)
  else
    let counted := s.dataQueue.foldl countOut s.updateMax
    ({ counted with dwQSize := 0, dataQueue := [] }, s.dataQueue, !s.dataQueue.isEmpty)

/-- The records go to `dwDrop`. The blocks count as taken out, their records
do not. -/
def clear (s : DataBatchingBuffer Handle) : DataBatchingBuffer Handle :=
  { s with
    dwDrop := s.dataQueue.foldl (fun drop qData => drop + qData.iRec) s.dwDrop
    dataQueue := []
    dwTotalOut := s.dwTotalIn
    dwQSize := 0 }

def clearStats (s : DataBatchingBuffer Handle) : DataBatchingBuffer Handle :=
  if s.clearStats1.empty then s.clearStats1.clearStats2 else s.clearStats1

end DataBatchingBuffer
end CppPerf.Queue
