import CppPerf.Buffer.DynBuffer
import CppPerf.Buffer.DynBufferSpec
import CppPerf.Memory.LittleEndian
import Mathlib.Algebra.Ring.Int.Defs

/-! The message queue of `DynMsg.h`: a byte buffer of frames, each a length of
four bytes and that many bytes of body. Pointers and `size_t` are 64 bits wide.
`alloc` gives the outcome of the allocation, if any, of each append of a call. -/
namespace CppPerf.Buffer

open Heap

namespace Chars

/-- The bytes of an integer in memory. -/
def ofInt (width value : Nat) (h : width < 2 ^ 32) : Chars :=
  ⟨encodeLe width value, by rw [length_encodeLe]; exact h⟩

def ofLong (value : UInt32) : Chars := ofInt 4 value.toNat (by decide)

def ofShort (value : UInt16) : Chars := ofInt 2 value.toNat (by decide)

def ofPointer (value : UInt64) : Chars := ofInt 8 value.toNat (by decide)

end Chars

structure CDynMsg extends CDynBuffer where
  msgs : Int := 0

/-- Read an `unsigned long` at a pointer. -/
def loadLong (owner : Option Block) (p : Option Ptr) : Option UInt32 :=
  (load owner p 4).map fun bytes => UInt32.ofNat (decodeLe bytes)

namespace CDynBuffer

/-- Appends one after the other. The first one refused takes the `appended`
bytes of the others off the length again. -/
def appendChunks (b : CDynBuffer) (appended : UInt32) :
    List (Chars × Option Nat) → Option (CDynBuffer × Bool)
  | [] => some (b, true)
  | (data, alloc) :: rest =>
      (b.appendData data alloc).bind fun (b, ok) =>
        if ok then appendChunks b (appended + data.len) rest
        else some ({ b with m_lLen := b.m_lLen - appended }, false)

end CDynBuffer

namespace CDynMsg

/-- The default constructor, which raises the maximum after the base is built. -/
def construct (id : Nat) : CDynMsg :=
  { CDynBuffer.construct 4096 0x1000000 id with msgs := 0, m_lMaxSize := 0x2000000 }

/-- The common part of the functions that add a message. -/
def addChunks (m : CDynMsg) (chunks : List (Chars × Option Nat)) : Option (CDynMsg × Bool) :=
  (m.toCDynBuffer.appendChunks 0 chunks).map fun (b, ok) =>
    if ok then ({ toCDynBuffer := b, msgs := m.msgs + 1 }, true)
    else ({ toCDynBuffer := b, msgs := m.msgs }, false)

/-- `AddMsg(char *, unsigned long)` -/
def addMsg (m : CDynMsg) (pBuf : Chars) (alloc : Nat → Option Nat) : Option (CDynMsg × Bool) :=
  m.addChunks [(Chars.ofLong pBuf.len, alloc 0), (pBuf, alloc 1)]

/-- `AddMsg(short, char *, unsigned long)` -/
def addMsgTyped (m : CDynMsg) (iType : UInt16) (pBuf : Chars) (alloc : Nat → Option Nat) :
    Option (CDynMsg × Bool) :=
  m.addChunks
    [(Chars.ofLong (pBuf.len + 2), alloc 0), (Chars.ofShort iType, alloc 1), (pBuf, alloc 2)]

def addMsgCliData (m : CDynMsg) (addr : UInt64) (pBuf : Chars) (alloc : Nat → Option Nat) :
    Option (CDynMsg × Bool) :=
  m.addChunks
    [(Chars.ofLong (pBuf.len + 8), alloc 0), (Chars.ofPointer addr, alloc 1), (pBuf, alloc 2)]

/-- The body of `RemoveMsg()` for a length that was read. -/
def consumeMsg (m : CDynMsg) (iLen : UInt32) : CDynMsg :=
  { m with toCDynBuffer := m.toCDynBuffer.setDataConsumed (iLen + 4), msgs := m.msgs - 1 }

def removeMsg (m : CDynMsg) : Option (CDynMsg × Bool) :=
  (loadLong m.m_pBuffer m.m_pCur).map fun iLen =>
    if m.m_lLen.toNat < iLen.toNat + 4 then (m, false) else (m.consumeMsg iLen, true)

def removeAll (m : CDynMsg) : CDynMsg :=
  { m with toCDynBuffer := m.toCDynBuffer.clearData, msgs := 0 }

/-- The loop of `RemoveMsg(int, long *)` with `left` rounds to go at index `i`. -/
def removeMsgLoop (m : CDynMsg) (bytes : UInt32) (i : Nat) :
    (left : Nat) → Option (CDynMsg × Int × UInt32)
  | 0 => some (m, i, bytes)
  | left + 1 =>
      (loadLong m.m_pBuffer m.m_pCur).bind fun iLen =>
        if m.m_lLen.toNat < 4 + iLen.toNat then
          some (m.removeAll, (i : Int) + m.msgs, bytes + m.m_lLen)
        else removeMsgLoop (m.consumeMsg iLen) (bytes + iLen) (i + 1) left

/-- `RemoveMsg(int, long *)`: also the number of messages removed, and the
number of bytes. -/
def removeMsgs (m : CDynMsg) (n : Int) : Option (CDynMsg × Int × UInt32) :=
  if n ≤ 0 then some (m, n, 0) else m.removeMsgLoop 0 0 n.toNat

/-- `GetMsg(unsigned long *)`: the payload and its length, or `NULL`. -/
def getMsg (m : CDynMsg) : Option (Option (Option Ptr × UInt32)) :=
  if m.m_lLen ≤ 4 then some none
  else
    (loadLong m.m_pBuffer m.m_pCur).map fun len => some (shift m.m_pCur 4, len)

/-- `GetMsg(const char *, unsigned long *)` for the end of the previous payload.
The comparison is between `size_t` values. -/
def getMsgNext (m : CDynMsg) (pNext : Option Ptr) : Option (Option (Option Ptr × UInt32)) :=
  (distance m.m_pBuffer pNext).bind fun next =>
    (distance m.m_pBuffer m.m_pCur).bind fun begin =>
      if (m.m_lLen.toNat : Int) ≤ ((next : Int) - begin + 4) % 2 ^ 64 then some none
      else (loadLong m.m_pBuffer pNext).map fun len => some (shift pNext 4, len)

def copyFrom (m copy_ : CDynMsg) (alloc : Option Nat) : Option CDynMsg :=
  (m.toCDynBuffer.copyFrom copy_.toCDynBuffer alloc).map fun b =>
    { toCDynBuffer := b, msgs := copy_.msgs }

/-- The copy constructor. -/
def constructCopy (copy_ : CDynMsg) (id : Nat) (alloc : Option Nat) : Option CDynMsg :=
  copyFrom { toCDynBuffer := CDynBuffer.construct copy_.m_lSize copy_.m_lMaxSize id } copy_ alloc

/-- Both queues afterwards, and what is returned. -/
def swapBuffer (m pair : CDynMsg) (alloc : Option Nat) : Option ((CDynMsg × CDynMsg) × Bool) :=
  if m.msgs = 0 ∧ 0 < pair.msgs then
    (m.toCDynBuffer.swapBuffer pair.toCDynBuffer alloc).map fun ((b, pair'), ok) =>
      (({ toCDynBuffer := b, msgs := pair.msgs }, { toCDynBuffer := pair', msgs := m.msgs }), ok)
  else some ((m, pair), false)

end CDynMsg
end CppPerf.Buffer

/-! A message is written by several appends. Either all of them succeed, or the
ones before the refused one are taken back, unless a stage strands the buffer
or its length wraps around. -/
namespace CppPerf.Buffer.CDynBuffer

open Heap

/-- The append is not refused, provided that it does not strand the buffer. -/
def Accepts (b : CDynBuffer) (len : UInt32) (alloc : Option Nat) : Prop :=
  ¬b.Refuses len ∧ (b.m_lSize < b.m_lLen + len → alloc.isSome = true)

/-- The sizes after an accepted append. -/
def afterAppend (b : CDynBuffer) (len : UInt32) : CDynBuffer :=
  { b with
    m_lLen := b.m_lLen + len
    m_lSize := if b.m_lSize < b.m_lLen + len then b.nextSize len else b.m_lSize }

/-- No stage that is reached wraps the length around or strands the buffer. -/
def StagesSpare (b : CDynBuffer) : List (Chars × Option Nat) → Prop
  | [] => True
  | (data, alloc) :: rest =>
      b.m_lLen.toNat + data.bytes.length < 2 ^ 32 ∧ ¬b.Stranded data.len ∧
        (b.Accepts data.len alloc → (b.afterAppend data.len).StagesSpare rest)

/-- No stage is refused. -/
def AcceptsAll (b : CDynBuffer) : List (Chars × Option Nat) → Prop
  | [] => True
  | (data, alloc) :: rest =>
      b.m_lLen.toNat + data.bytes.length ≤ b.m_lMaxSize.toNat ∧ ¬b.Stranded data.len ∧
        (b.m_lSize.toNat < b.m_lLen.toNat + data.bytes.length → alloc.isSome = true) ∧
        (b.afterAppend data.len).AcceptsAll rest

/-- The sizes that decide how an append is carried out. -/
structure SameSizes (b b' : CDynBuffer) : Prop where
  size_eq : b'.m_lSize = b.m_lSize
  max_eq : b'.m_lMaxSize = b.m_lMaxSize
  len_eq : b'.m_lLen = b.m_lLen

section

variable {b b' : CDynBuffer}

theorem SameSizes.refuses_iff (h : b.SameSizes b') (len : UInt32) :
    b'.Refuses len ↔ b.Refuses len := by
  rw [Refuses, Refuses, h.max_eq, h.len_eq]

theorem SameSizes.grownSize_eq (h : b.SameSizes b') (len : UInt32) :
    b'.grownSize len = b.grownSize len := by
  simp only [grownSize, h.size_eq, h.len_eq]

theorem SameSizes.stranded_iff (h : b.SameSizes b') (len : UInt32) :
    b'.Stranded len ↔ b.Stranded len := by
  rw [Stranded, Stranded, h.refuses_iff, h.grownSize_eq, h.size_eq, h.max_eq, h.len_eq]

theorem SameSizes.afterAppend (h : b.SameSizes b') (len : UInt32) :
    (b.afterAppend len).SameSizes (b'.afterAppend len) := by
  constructor
  · simp only [CDynBuffer.afterAppend, nextSize, h.grownSize_eq, h.size_eq, h.max_eq, h.len_eq]
  · exact h.max_eq
  · simp only [CDynBuffer.afterAppend, h.len_eq]

theorem SameSizes.acceptsAll (h : b.SameSizes b') (chunks : List (Chars × Option Nat))
    (hAll : b.AcceptsAll chunks) : b'.AcceptsAll chunks := by
  induction chunks generalizing b b' with
  | nil => trivial
  | cons chunk rest ih =>
      obtain ⟨data, alloc⟩ := chunk
      obtain ⟨hSum, hStrand, hAlloc, hRest⟩ := hAll
      refine ⟨?_, (h.stranded_iff _).not.mpr hStrand, ?_, ih (h.afterAppend data.len) hRest⟩
      · rw [h.len_eq, h.max_eq]
        exact hSum
      · rw [h.size_eq, h.len_eq]
        exact hAlloc

theorem SameSizes.trans {c : CDynBuffer} (h : b.SameSizes b') (h' : b'.SameSizes c) :
    b.SameSizes c :=
  ⟨h'.size_eq.trans h.size_eq, h'.max_eq.trans h.max_eq, h'.len_eq.trans h.len_eq⟩

theorem SameSizes.foldl (h : b.SameSizes b') (chunks : List (Chars × Option Nat)) :
    (chunks.foldl (fun c chunk => c.afterAppend chunk.1.len) b).SameSizes
      (chunks.foldl (fun c chunk => c.afterAppend chunk.1.len) b') := by
  induction chunks generalizing b b' with
  | nil => exact h
  | cons chunk rest ih => exact ih (h.afterAppend chunk.1.len)

theorem SameSizes.stagesSpare (h : b.SameSizes b') (chunks : List (Chars × Option Nat))
    (hSpare : b.StagesSpare chunks) : b'.StagesSpare chunks := by
  induction chunks generalizing b b' with
  | nil => trivial
  | cons chunk rest ih =>
      obtain ⟨data, alloc⟩ := chunk
      obtain ⟨hSum, hStrand, hRest⟩ := hSpare
      refine ⟨by rw [h.len_eq]; exact hSum, (h.stranded_iff _).not.mpr hStrand, ?_⟩
      intro hAccepts
      apply ih (h.afterAppend data.len)
      apply hRest
      refine ⟨(h.refuses_iff _).not.mp hAccepts.1, ?_⟩
      rw [← h.size_eq, ← h.len_eq]
      exact hAccepts.2

end

section Chunks

variable {b : CDynBuffer} {block : Block} {off : Nat} {content base part : List UInt8}

/-- Taking back what was appended last. -/
theorem Holds.rollback (h : b.Holds block off (base ++ part)) {n : UInt32}
    (hn : n.toNat = part.length) :
    ({ b with m_lLen := b.m_lLen - n } : CDynBuffer).Holds block off base := by
  have hLength := h.length_content
  have hBound := h.bound
  rw [List.length_append] at hLength
  have hRest : (b.m_lLen - n).toNat = base.length := by
    rw [UInt32.toNat_sub_of_le _ _ (UInt32.le_iff_toNat_le.mpr (by omega))]
    omega
  refine ⟨h.buffer_eq, h.cur_eq, h.size_eq, ?_, ?_⟩
  · change off + (b.m_lLen - n).toNat ≤ b.m_lSize.toNat
    omega
  · change slice block.bytes off (b.m_lLen - n).toNat = base
    rw [hRest, slice_take block.bytes off (show base.length ≤ b.m_lLen.toNat by omega),
      h.content_eq, List.take_left']
    rfl

theorem toNat_add_len {n : UInt32} {data : Chars} (hSum : n.toNat + data.bytes.length < 2 ^ 32) :
    (n + data.len).toNat = n.toNat + data.bytes.length := by
  rw [UInt32.toNat_add, data.toNat_len]
  omega

/-- Where the length does not wrap around, the comparisons are those of numbers. -/
theorem accepts_iff {data : Chars} {alloc : Option Nat}
    (hSum : b.m_lLen.toNat + data.bytes.length < 2 ^ 32) :
    b.Accepts data.len alloc ↔ b.m_lLen.toNat + data.bytes.length ≤ b.m_lMaxSize.toNat ∧
      (b.m_lSize.toNat < b.m_lLen.toNat + data.bytes.length → alloc.isSome = true) := by
  rw [Accepts, Refuses, UInt32.lt_iff_toNat_lt, UInt32.lt_iff_toNat_lt, toNat_add_len hSum,
    Nat.not_lt]

/-- An accepted append leads to the sizes that `afterAppend` predicts. -/
theorem sameSizes_afterAppend {b' : CDynBuffer} {data : Chars}
    (hSum : b.m_lLen.toNat + data.bytes.length < 2 ^ 32)
    (hLen : b'.m_lLen.toNat = b.m_lLen.toNat + data.bytes.length)
    (hMax : b'.m_lMaxSize = b.m_lMaxSize)
    (hSize : b'.m_lSize = (if b.m_lSize.toNat < b.m_lLen.toNat + data.bytes.length then
      b.nextSize data.len else b.m_lSize)) :
    (b.afterAppend data.len).SameSizes b' := by
  have hAdd := toNat_add_len hSum
  refine ⟨?_, hMax, ?_⟩
  · rw [hSize, afterAppend]
    simp only [UInt32.lt_iff_toNat_lt, hAdd]
  · apply UInt32.toNat_inj.mp
    rw [hLen, afterAppend, hAdd]

/-- One stage that is neither refused nor strands the buffer. -/
theorem Holds.appendData_accepted (h : b.Holds block off content) {data : Chars}
    {alloc : Option Nat} (hMax : b.m_lMaxSize.toNat < 2 ^ 31)
    (hSize : b.m_lSize.toNat ≤ b.m_lMaxSize.toNat)
    (hSum : b.m_lLen.toNat + data.bytes.length < 2 ^ 32) (hStrand : ¬b.Stranded data.len)
    (hAccepts : b.Accepts data.len alloc) :
    ∃ c block' off', b.appendData data alloc = some (c, true) ∧
      c.Holds block' off' (content ++ data.bytes) ∧ (b.afterAppend data.len).SameSizes c ∧
      b.m_lSize.toNat ≤ c.m_lSize.toNat ∧ c.m_lSize.toNat ≤ b.m_lMaxSize.toNat ∧
      (off' = off ∨ off' = 0) ∧ (block'.id = block.id ∨ alloc = some block'.id) := by
  obtain ⟨hUnder, hAlloc⟩ := (accepts_iff hSum).mp hAccepts
  obtain ⟨c, block', off', hRun, hHolds, hLen, hMaxEq, hSizeEq, hOff, hId⟩ :=
    h.appendData_spec hMax hUnder hStrand hAlloc
  have hNext := b.nextSize_bounds data.len hMax (by rw [data.toNat_len]; exact hUnder)
  rw [data.toNat_len] at hNext
  have hGrew : b.m_lSize.toNat ≤ c.m_lSize.toNat ∧ c.m_lSize.toNat ≤ b.m_lMaxSize.toNat := by
    rw [hSizeEq]
    split_ifs <;> omega
  exact ⟨c, block', off', hRun, hHolds, sameSizes_afterAppend hSum hLen hMaxEq hSizeEq,
    hGrew.1, hGrew.2, hOff, hId⟩

/-- All chunks are appended, or the content is what it was before the first. -/
theorem Holds.appendChunks_spec (h : b.Holds block off (base ++ part)) {appended : UInt32}
    (hAppended : appended.toNat = part.length) (hMax : b.m_lMaxSize.toNat < 2 ^ 31)
    (hSize : b.m_lSize.toNat ≤ b.m_lMaxSize.toNat) {chunks : List (Chars × Option Nat)}
    (hSpare : b.StagesSpare chunks) :
    ∃ b' block' off' ok, b.appendChunks appended chunks = some (b', ok) ∧
      b'.Holds block' off'
        (if ok then base ++ part ++ chunks.flatMap (fun chunk => chunk.1.bytes) else base) ∧
      b'.m_lMaxSize = b.m_lMaxSize ∧ b'.m_lSize.toNat ≤ b.m_lMaxSize.toNat ∧
      b.m_lSize.toNat ≤ b'.m_lSize.toNat ∧ (off' = off ∨ off' = 0) ∧
      (block'.id = block.id ∨ ∃ chunk ∈ chunks, chunk.2 = some block'.id) := by
  induction chunks generalizing b block off part appended with
  | nil =>
      refine ⟨b, block, off, true, rfl, ?_, rfl, hSize, Nat.le_refl _, Or.inl rfl, Or.inl rfl⟩
      simpa using h
  | cons chunk rest ih =>
      obtain ⟨data, alloc⟩ := chunk
      obtain ⟨hSum, hStrand, hRest⟩ := hSpare
      rcases b.appendData_cases data alloc hSum with ⟨c, hRefused⟩ | ⟨hUnder, _, hAlloc⟩
      · -- The stage is refused and keeps the buffer, so the rollback is exact.
        have hResize := (appendData_refused_iff b c data alloc).mp hRefused
        rcases resize_refused hResize with ⟨_, hKept⟩ | ⟨hBad, _⟩
        · refine ⟨{ c with m_lLen := c.m_lLen - appended }, block, off, false, ?_,
            (h.of_kept hKept).rollback hAppended, hKept.max_eq, ?_, ?_, Or.inl rfl, Or.inl rfl⟩
          · simp [appendChunks, hRefused]
          · rw [hKept.size_eq]
            exact hSize
          · exact Nat.le_of_eq (congrArg UInt32.toNat hKept.size_eq.symm)
        · exact absurd hBad hStrand
      · have hAccepts := (accepts_iff hSum).mpr ⟨hUnder, hAlloc⟩
        obtain ⟨c, block₁, off₁, hRun, hHolds, hSame, hGrew, hLeMax, hOff, hId⟩ :=
          h.appendData_accepted hMax hSize hSum hStrand hAccepts
        have hMaxEq : c.m_lMaxSize = b.m_lMaxSize := hSame.max_eq
        have hTotal : (appended + data.len).toNat = (part ++ data.bytes).length := by
          have hLength := h.length_content
          rw [List.length_append] at hLength ⊢
          rw [toNat_add_len (by omega), hAppended]
        rw [List.append_assoc] at hHolds
        rw [← hMaxEq] at hMax hLeMax ⊢
        obtain ⟨b', block', off', ok, hRunRest, hNew, hMax', hLe, hGe, hOff', hId'⟩ :=
          ih hHolds hTotal hMax hLeMax (hSame.stagesSpare rest (hRest hAccepts))
        refine ⟨b', block', off', ok, ?_, ?_, hMax', hLe, Nat.le_trans hGrew hGe, ?_, ?_⟩
        · simp only [appendChunks, hRun, Option.bind_some, ↓reduceIte]
          exact hRunRest
        · simpa only [List.flatMap_cons, List.append_assoc] using hNew
        · rcases hOff' with rfl | rfl
          · exact hOff
          · exact Or.inr rfl
        · rcases hId' with hSameId | ⟨later, hMem, hLater⟩
          · rw [hSameId]
            rcases hId with hOldId | hNewId
            · exact Or.inl hOldId
            · exact Or.inr ⟨(data, alloc), by simp, hNewId⟩
          · exact Or.inr ⟨later, by simp [hMem], hLater⟩

/-- When no stage is refused, the sizes add up stage by stage. -/
theorem Holds.appendChunks_accepts (h : b.Holds block off content) {appended : UInt32}
    (hMax : b.m_lMaxSize.toNat < 2 ^ 31) {chunks : List (Chars × Option Nat)}
    (hAll : b.AcceptsAll chunks) :
    ∃ b', b.appendChunks appended chunks = some (b', true) ∧
      (chunks.foldl (fun c chunk => c.afterAppend chunk.1.len) b).SameSizes b' := by
  induction chunks generalizing b block off content appended with
  | nil => exact ⟨b, rfl, rfl, rfl, rfl⟩
  | cons chunk rest ih =>
      obtain ⟨data, alloc⟩ := chunk
      obtain ⟨hSum, hStrand, hAlloc, hRest⟩ := hAll
      obtain ⟨c, block₁, off₁, hRun, hHolds, hLen, hMaxEq, hSizeEq, _⟩ :=
        h.appendData_spec hMax hSum hStrand hAlloc
      have hSame := sameSizes_afterAppend (by omega) hLen hMaxEq hSizeEq
      obtain ⟨b', hRunRest, hSizes⟩ :=
        ih hHolds (by rw [hMaxEq]; exact hMax) (hSame.acceptsAll rest hRest)
      refine ⟨b', ?_, (hSame.foldl rest).trans hSizes⟩
      simp only [appendChunks, hRun, Option.bind_some, ↓reduceIte]
      exact hRunRest

/-- Data that does not fit behind the content is not written. -/
theorem Holds.write_eq_none (h : b.Holds block off content) {data : Chars}
    (hBig : b.m_lSize.toNat < off + b.m_lLen.toNat + data.bytes.length) :
    b.write data = none := by
  have hStore : store b.m_pBuffer (shift b.m_pCur b.m_lLen.toNat) data.bytes = none := by
    rw [h.buffer_eq, h.cur_eq]
    simp only [shift, Option.map_some, store]
    rw [if_neg]
    rw [h.size_eq]
    omega
  unfold write
  rw [hStore]
  split_ifs <;> rfl

/-- A length that wraps around is accepted, and overruns the storage. -/
theorem Holds.appendData_eq_none (h : b.Holds block off content) {data : Chars}
    (hSize : b.m_lSize.toNat ≤ b.m_lMaxSize.toNat) (alloc : Option Nat)
    (hWrap : 2 ^ 32 ≤ b.m_lLen.toNat + data.bytes.length) : b.appendData data alloc = none := by
  have hBound := h.bound
  have hLt := data.length_lt
  have hMax := b.m_lMaxSize.toNat_lt
  have hAdd : (b.m_lLen + data.len).toNat = b.m_lLen.toNat + data.bytes.length - 2 ^ 32 := by
    rw [UInt32.toNat_add, data.toNat_len]
    omega
  have hRefuses : ¬b.Refuses data.len := by
    rw [Refuses, UInt32.lt_iff_toNat_lt, hAdd]
    omega
  have hGrow : ¬b.m_lSize < b.m_lLen + data.len := by
    rw [UInt32.lt_iff_toNat_lt, hAdd]
    omega
  have hStrand : ¬b.Stranded data.len := fun hs => hGrow hs.2.1
  unfold appendData
  rw [resize_eq, if_neg hRefuses, if_neg hStrand, if_neg hGrow]
  cases hRoom : b.hasRoom data.len with
  | none => rfl
  | some room =>
      cases room with
      | true =>
          have hWrite : b.write data = none := h.write_eq_none (by omega)
          simp [hWrite]
      | false =>
          obtain ⟨c, block', hCompact, hNew, hSizeC, _, hLenC, _⟩ := h.compact_spec
          have hWrite : c.write data = none := by
            apply hNew.write_eq_none
            rw [hSizeC, hLenC]
            omega
          simp [hCompact, hWrite]

/-- A stage that wraps around or strands the buffer is undefined behaviour or
leaves the buffer without storage. -/
theorem Holds.appendChunks_breaks (h : b.Holds block off content) {appended : UInt32}
    (hMax : b.m_lMaxSize.toNat < 2 ^ 31) (hSize : b.m_lSize.toNat ≤ b.m_lMaxSize.toNat)
    {chunks : List (Chars × Option Nat)} (hBad : ¬b.StagesSpare chunks) :
    b.appendChunks appended chunks = none ∨
      ∃ b', b.appendChunks appended chunks = some (b', false) ∧ b'.m_pBuffer = none := by
  induction chunks generalizing b block off content appended with
  | nil => exact absurd trivial hBad
  | cons chunk rest ih =>
      obtain ⟨data, alloc⟩ := chunk
      by_cases hSum : b.m_lLen.toNat + data.bytes.length < 2 ^ 32
      · by_cases hStrand : b.Stranded data.len
        · obtain ⟨c, hResize, hLost⟩ :
              ∃ c, b.resize data.len alloc = some (c, false) ∧ c.m_pBuffer = none := by
            rw [resize_eq, if_neg hStrand.1, if_pos hStrand]
            exact ⟨_, rfl, rfl⟩
          have hRun := (appendData_refused_iff b c data alloc).mpr hResize
          refine Or.inr ⟨{ c with m_lLen := c.m_lLen - appended }, ?_, hLost⟩
          simp [appendChunks, hRun]
        · have hLater : ¬(b.Accepts data.len alloc → (b.afterAppend data.len).StagesSpare rest) :=
            fun hRest => hBad ⟨hSum, hStrand, hRest⟩
          obtain ⟨hAccepts, hBadRest⟩ := Classical.not_imp.mp hLater
          obtain ⟨c, block₁, off₁, hRun, hHolds, hSame, _, hSizeC, _⟩ :=
            h.appendData_accepted hMax hSize hSum hStrand hAccepts
          have hMaxEq : c.m_lMaxSize = b.m_lMaxSize := hSame.max_eq
          rw [← hMaxEq] at hMax hSizeC
          have hBadC : ¬c.StagesSpare rest := by
            intro hSpare
            exact hBadRest (SameSizes.stagesSpare
              ⟨hSame.size_eq.symm, hSame.max_eq.symm, hSame.len_eq.symm⟩ rest hSpare)
          have hTail : c.appendChunks (appended + data.len) rest = none ∨
              ∃ b', c.appendChunks (appended + data.len) rest = some (b', false) ∧
                b'.m_pBuffer = none :=
            ih hHolds hMax hSizeC hBadC
          simpa only [appendChunks, hRun, Option.bind_some, ↓reduceIte] using hTail
      · have hNone : b.appendData data alloc = none :=
          h.appendData_eq_none hSize alloc (by omega)
        exact Or.inl (by simp [appendChunks, hNone])

end Chunks
end CppPerf.Buffer.CDynBuffer
