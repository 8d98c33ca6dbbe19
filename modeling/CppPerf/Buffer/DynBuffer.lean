import CppPerf.Memory.Block

/-! The byte buffer of `DynBuffer.h` over `char`. `unsigned long` is 32 bits
wide, pointer differences are 64 bits wide. The outcome of an allocation is an
argument: the identity of the new block, or `none` for `std::bad_alloc`. A call
whose behaviour is undefined, or whose assertion fails, has no result. -/
namespace CppPerf.Buffer

open Heap

/-- Bytes passed by a client with their length, which an `unsigned long` holds. -/
structure Chars where
  bytes : List UInt8
  length_lt : bytes.length < 2 ^ 32

namespace Chars

def len (data : Chars) : UInt32 := UInt32.ofNat data.bytes.length

@[simp] theorem toNat_len (data : Chars) : data.len.toNat = data.bytes.length :=
  UInt32.toNat_ofNat_of_lt data.length_lt

end Chars

structure CDynBuffer where
  m_pBuffer : Option Block
  m_lSize : UInt32
  m_lMaxSize : UInt32
  m_lLen : UInt32 := 0
  m_pCur : Option Ptr
  resizeCount : Nat := 0
  resizeMove : Nat := 0
  resizeFailedCount : Nat := 0
  resizeAttempted : Nat := 0
  resizeException : Nat := 0
  m_peakLen : UInt32 := 0

namespace CDynBuffer

def construct (initSize maxSize : UInt32) (id : Nat) : CDynBuffer :=
  { m_pBuffer := some (Block.zeroed id initSize.toNat)
    m_lSize := initSize
    m_lMaxSize := maxSize
    m_pCur := some (Block.zeroed id initSize.toNat).start }

def checkPeak (b : CDynBuffer) : CDynBuffer :=
  { b with m_peakLen := if b.m_peakLen < b.m_lLen then b.m_lLen else b.m_peakLen }

def countFailed (b : CDynBuffer) : CDynBuffer :=
  { b with resizeFailedCount := b.resizeFailedCount + 1 }

def countAttempted (b : CDynBuffer) : CDynBuffer :=
  { b with resizeAttempted := b.resizeAttempted + 1 }

def countException (b : CDynBuffer) : CDynBuffer :=
  { b with resizeException := b.resizeException + 1 }

/-- The size that `resize` asks for before it looks at the maximum. -/
def grownSize (b : CDynBuffer) (len : UInt32) : UInt32 :=
  let newSize := b.m_lSize / 2 * 3 + 2
  if newSize < b.m_lLen + len then (b.m_lLen + len) / 2 * 3 + 2 else newSize

/-- The size that `resize` allocates. -/
def nextSize (b : CDynBuffer) (len : UInt32) : UInt32 :=
  if b.m_lMaxSize < b.grownSize len then b.m_lMaxSize else b.grownSize len

/-- `m_pBuffer.get() - m_pCur + m_lSize >= len + m_lLen` -/
def hasRoom (b : CDynBuffer) (len : UInt32) : Option Bool :=
  (distance b.m_pBuffer b.m_pCur).map fun (off : Nat) =>
    decide (((len + b.m_lLen).toNat : Int) ≤ -(off : Int) + (b.m_lSize.toNat : Int))

/-- Copy the live bytes to the front of a new block. -/
def grow (b : CDynBuffer) (newSize : UInt32) (id : Nat) : Option CDynBuffer :=
  let fresh := Block.zeroed id newSize.toNat
  (load b.m_pBuffer b.m_pCur b.m_lLen.toNat).bind fun live =>
    (store (some fresh) (some fresh.start) live).map fun block =>
      { b with
        m_pBuffer := some block
        m_pCur := some block.start
        m_lSize := newSize
        resizeCount := b.resizeCount + 1 }

/-- Move the live bytes to the front of the block. -/
def compact (b : CDynBuffer) : Option CDynBuffer :=
  (load b.m_pBuffer b.m_pCur b.m_lLen.toNat).bind fun live =>
    (store b.m_pBuffer (get b.m_pBuffer) live).map fun block =>
      { b with
        m_pBuffer := some block
        m_pCur := some block.start
        resizeMove := b.resizeMove + 1 }

def resize (b : CDynBuffer) (len : UInt32) (alloc : Option Nat) : Option (CDynBuffer × Bool) :=
  if b.m_lMaxSize < b.m_lLen + len then some (b.countFailed, false)
  else if b.m_lSize < b.m_lLen + len then
    if b.m_lMaxSize < b.grownSize len ∧ b.m_lMaxSize - b.m_lSize < 100 then
      -- The storage was moved to `pOld`, which is released on return.
      some ({ b.countAttempted.countFailed with m_pBuffer := none }, false)
    else
      match alloc with
      | none => some (b.countAttempted.countException, false)
      | some id => (b.countAttempted.grow (b.nextSize len) id).map (·, true)
  else
    (b.hasRoom len).bind fun room =>
      if room then some (b, true) else b.compact.map (·, true)

/-- Assert that there is room, put the bytes behind the live ones and count them. -/
def write (b : CDynBuffer) (data : Chars) : Option CDynBuffer :=
  if b.hasRoom data.len = some true then
    (store b.m_pBuffer (shift b.m_pCur b.m_lLen.toNat) data.bytes).map fun block =>
      { b with m_pBuffer := some block, m_lLen := b.m_lLen + data.len }
  else none

def appendData (b : CDynBuffer) (data : Chars) (alloc : Option Nat) :
    Option (CDynBuffer × Bool) :=
  (b.resize data.len alloc).bind fun (b, ok) =>
    if ok then (b.write data).map fun b => (b.checkPeak, true) else some (b, false)

/-- The bytes `GetBuffer()[0..GetBufferLen())`. -/
def getBuffer (b : CDynBuffer) : Option (List UInt8) := load b.m_pBuffer b.m_pCur b.m_lLen.toNat

def clearData (b : CDynBuffer) : CDynBuffer :=
  { b with m_pCur := get b.m_pBuffer, m_lLen := 0 }

def setDataConsumed (b : CDynBuffer) (lLen : UInt32) : CDynBuffer :=
  let lLen := if b.m_lLen < lLen then b.m_lLen else lLen
  let b := { b with m_lLen := b.m_lLen - lLen, m_pCur := shift b.m_pCur lLen.toNat }
  if b.m_lLen = 0 then { b with m_pCur := get b.m_pBuffer } else b

def consumeLong (b : CDynBuffer) : Option CDynBuffer :=
  if 4 ≤ b.m_lLen then some (b.setDataConsumed 4) else none

/-- The client has stored the bytes at `GetWritePtr()` and tells their number. -/
def dataRead (b : CDynBuffer) (data : Chars) : Option CDynBuffer := b.write data

/-- The first line of `Reserve`. -/
def raiseMax (b : CDynBuffer) (max_ : UInt32) : CDynBuffer :=
  { b with m_lMaxSize := if b.m_lMaxSize < max_ then max_ else b.m_lMaxSize }

/-- `resize` would inflate 1.5 fold. Its result is not used. -/
def reserve (b : CDynBuffer) (max_ : UInt32) (alloc : Option Nat) : Option CDynBuffer :=
  ((b.raiseMax max_).resize ((max_ - b.m_lLen) * 2 / 3) alloc).map Prod.fst

def clearStats (b : CDynBuffer) : CDynBuffer :=
  { b with
    m_peakLen := 0, resizeCount := 0, resizeMove := 0, resizeFailedCount := 0,
    resizeAttempted := 0, resizeException := 0 }

def copyFrom (b copy_ : CDynBuffer) (alloc : Option Nat) : Option CDynBuffer :=
  (if b.m_lSize < copy_.m_lLen then (b.resize copy_.m_lLen alloc).map Prod.fst else some b).bind
    fun b =>
      copy_.getBuffer.bind fun bytes =>
        (store b.m_pBuffer (get b.m_pBuffer) bytes).map fun block =>
          { b with
            m_pBuffer := some block
            m_pCur := some block.start
            m_lLen := copy_.m_lLen }.checkPeak

/-- The first half of `swapBuffer`: make this buffer as large as the pair. A
replaced block leaves `m_pCur` as it was. -/
def enlargeForSwap (b pair : CDynBuffer) (alloc : Option Nat) : CDynBuffer :=
  if b.m_lSize < pair.m_lSize then
    match alloc with
    | none => b
    | some id =>
        { b with
          m_pBuffer := some (Block.zeroed id pair.m_lSize.toNat)
          m_lSize := if b.m_pBuffer.isNone then b.m_lSize else pair.m_lSize }
  else b

/-- Both buffers afterwards, and whether they were swapped. -/
def swapBuffer (b pair : CDynBuffer) (alloc : Option Nat) :
    Option ((CDynBuffer × CDynBuffer) × Bool) :=
  if b.m_lLen = 0 ∧ get b.m_pBuffer = b.m_pCur ∧ get pair.m_pBuffer = pair.m_pCur then
    let b := b.enlargeForSwap pair alloc
    if 0 < pair.m_lLen then
      some (({ b with
          m_pBuffer := pair.m_pBuffer, m_pCur := pair.m_pCur
          m_lLen := pair.m_lLen, m_lSize := pair.m_lSize }.checkPeak,
        { pair with
          m_pBuffer := b.m_pBuffer, m_pCur := b.m_pCur
          m_lLen := b.m_lLen, m_lSize := b.m_lSize }), true)
    else some ((b, pair), false)
  else none

end CDynBuffer
end CppPerf.Buffer
