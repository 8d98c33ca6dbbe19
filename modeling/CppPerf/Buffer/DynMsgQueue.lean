import CppPerf.Buffer.DynMsg

/-! The message queue as a list of message bodies, one frame after the other in
the bytes of the buffer. -/
namespace CppPerf.Buffer

open Heap

/-- A length of four bytes and the body. -/
def frame (body : List UInt8) : List UInt8 := encodeLe 4 body.length ++ body

def frames (bodies : List (List UInt8)) : List UInt8 := bodies.flatMap frame

@[simp] theorem length_frame (body : List UInt8) : (frame body).length = 4 + body.length := by
  rw [frame, List.length_append, length_encodeLe]

@[simp] theorem frames_nil : frames [] = [] := rfl

@[simp] theorem frames_cons (body : List UInt8) (rest : List (List UInt8)) :
    frames (body :: rest) = frame body ++ frames rest := rfl

theorem frames_append (bodies rest : List (List UInt8)) :
    frames (bodies ++ rest) = frames bodies ++ frames rest := by
  rw [frames, List.flatMap_append]
  rfl

/-- An argument list of one of the functions that add a message. -/
inductive NewMsg where
  | plain (pBuf : Chars)
  | typed (iType : UInt16) (pBuf : Chars)
  | cliData (addr : UInt64) (pBuf : Chars)

namespace NewMsg

/-- The type or the pointer, if there is one, and then the payload. -/
def body : NewMsg → List UInt8
  | .plain pBuf => pBuf.bytes
  | .typed iType pBuf => encodeLe 2 iType.toNat ++ pBuf.bytes
  | .cliData addr pBuf => encodeLe 8 addr.toNat ++ pBuf.bytes

def add (msg : NewMsg) (m : CDynMsg) (alloc : Nat → Option Nat) : Option (CDynMsg × Bool) :=
  match msg with
  | .plain pBuf => m.addMsg pBuf alloc
  | .typed iType pBuf => m.addMsgTyped iType pBuf alloc
  | .cliData addr pBuf => m.addMsgCliData addr pBuf alloc

/-- The appends that write the message. -/
def chunks (alloc : Nat → Option Nat) : NewMsg → List (Chars × Option Nat)
  | .plain pBuf => [(Chars.ofLong pBuf.len, alloc 0), (pBuf, alloc 1)]
  | .typed iType pBuf =>
      [(Chars.ofLong (pBuf.len + 2), alloc 0), (Chars.ofShort iType, alloc 1), (pBuf, alloc 2)]
  | .cliData addr pBuf =>
      [(Chars.ofLong (pBuf.len + 8), alloc 0), (Chars.ofPointer addr, alloc 1), (pBuf, alloc 2)]

theorem add_eq (msg : NewMsg) (m : CDynMsg) (alloc : Nat → Option Nat) :
    msg.add m alloc = m.addChunks (msg.chunks alloc) := by
  cases msg <;> rfl

/-- Allocations of the three appends at most. -/
theorem alloc_of_mem_chunks {msg : NewMsg} {alloc : Nat → Option Nat} {chunk : Chars × Option Nat}
    (h : chunk ∈ msg.chunks alloc) : ∃ k < 3, chunk.2 = alloc k := by
  cases msg <;> simp only [chunks, List.mem_cons, List.not_mem_nil, or_false] at h
  · rcases h with rfl | rfl
    · exact ⟨0, by omega, rfl⟩
    · exact ⟨1, by omega, rfl⟩
  all_goals
    rcases h with rfl | rfl | rfl
    · exact ⟨0, by omega, rfl⟩
    · exact ⟨1, by omega, rfl⟩
    · exact ⟨2, by omega, rfl⟩

private theorem length_bytes_chunks (msg : NewMsg) (alloc : Nat → Option Nat) :
    ((msg.chunks alloc).flatMap fun chunk => chunk.1.bytes).length = 4 + msg.body.length := by
  cases msg <;> simp [chunks, body, Chars.ofLong, Chars.ofShort, Chars.ofPointer, Chars.ofInt]

/-- What the appends write is the frame of the body, if that is not too long
for the length field. -/
theorem bytes_chunks (msg : NewMsg) (alloc : Nat → Option Nat)
    (h : ((msg.chunks alloc).flatMap fun chunk => chunk.1.bytes).length < 2 ^ 32) :
    ((msg.chunks alloc).flatMap fun chunk => chunk.1.bytes) = frame msg.body := by
  rw [length_bytes_chunks] at h
  cases msg with
  | plain pBuf => simp [chunks, body, Chars.ofLong, Chars.ofInt, frame]
  | typed iType pBuf =>
      have hLen : (pBuf.len + 2).toNat = 2 + pBuf.bytes.length := by
        rw [body, List.length_append, length_encodeLe] at h
        rw [UInt32.toNat_add, pBuf.toNat_len]
        simp only [UInt32.reduceToNat]
        omega
      simp [chunks, body, Chars.ofLong, Chars.ofShort, Chars.ofInt, frame, hLen]
  | cliData addr pBuf =>
      have hLen : (pBuf.len + 8).toNat = 8 + pBuf.bytes.length := by
        rw [body, List.length_append, length_encodeLe] at h
        rw [UInt32.toNat_add, pBuf.toNat_len]
        simp only [UInt32.reduceToNat]
        omega
      simp [chunks, body, Chars.ofLong, Chars.ofPointer, Chars.ofInt, frame, hLen]

end NewMsg

namespace CDynMsg

open CDynBuffer

/-- The maximum that every message queue is constructed with. -/
def maxSize : Nat := 0x2000000

/-- The queue holds the frames of the bodies in storage of its own. `next` is
above the identity of every block handed out so far. -/
structure Intact (m : CDynMsg) (bodies : List (List UInt8)) (next : Nat) : Prop where
  holds : ∃ block off, m.Holds block off (frames bodies) ∧ (bodies = [] → off = 0) ∧
    block.id < next
  msgs_eq : m.msgs = bodies.length
  max_eq : m.m_lMaxSize.toNat = maxSize
  size_le : m.m_lSize.toNat ≤ maxSize
  size_ge : 4 ≤ m.m_lSize.toNat

variable {m m' : CDynMsg} {body : List UInt8} {bodies : List (List UInt8)} {next : Nat}

theorem Intact.mono (h : m.Intact bodies next) {later : Nat} (hNext : next ≤ later) :
    m.Intact bodies later := by
  obtain ⟨block, off, hHolds, hOff, hId⟩ := h.holds
  exact ⟨⟨block, off, hHolds, hOff, by omega⟩, h.msgs_eq, h.max_eq, h.size_le, h.size_ge⟩

/-- A constructed queue is empty. -/
theorem intact_of_construct {initSize : UInt32} (hInit : 4 ≤ initSize.toNat)
    (hMax : initSize.toNat ≤ maxSize) (hNew : m.m_pBuffer = some (Block.zeroed next initSize.toNat))
    (hCur : m.m_pCur = some ⟨next, 0⟩) (hSize : m.m_lSize = initSize) (hLen : m.m_lLen = 0)
    (hMaxSize : m.m_lMaxSize.toNat = maxSize) (hMsgs : m.msgs = 0) :
    m.Intact [] (next + 1) := by
  have hHolds : m.Holds (Block.zeroed next initSize.toNat) 0 [] := by
    refine ⟨hNew, hCur, ?_, ?_, ?_⟩
    · rw [Block.length_zeroed, hSize]
    · rw [hLen]
      exact Nat.zero_le _
    · rw [hLen]
      exact slice_zero _ _
  refine ⟨⟨_, 0, hHolds, fun _ => rfl, ?_⟩, hMsgs, hMaxSize, ?_, ?_⟩
  · rw [Block.id_zeroed]
    omega
  · rw [hSize]
    exact hMax
  · rw [hSize]
    exact hInit

theorem construct_intact (next : Nat) : (construct next).Intact [] (next + 1) :=
  intact_of_construct (by decide) (by decide) rfl rfl rfl rfl rfl rfl

theorem Intact.max_lt (h : m.Intact bodies next) : m.m_lMaxSize.toNat < 2 ^ 31 := by
  rw [h.max_eq, maxSize]
  omega

theorem Intact.size_le_max (h : m.Intact bodies next) :
    m.m_lSize.toNat ≤ m.m_lMaxSize.toNat := by
  rw [h.max_eq]
  exact h.size_le

theorem Intact.length_frames (h : m.Intact bodies next) :
    (frames bodies).length = m.m_lLen.toNat := by
  obtain ⟨block, off, hHolds, _⟩ := h.holds
  exact hHolds.length_content

theorem Intact.len_le (h : m.Intact bodies next) : m.m_lLen.toNat ≤ maxSize := by
  obtain ⟨block, off, hHolds, _⟩ := h.holds
  have hBound := hHolds.bound
  have hSize := h.size_le
  omega

theorem Intact.getBuffer_eq (h : m.Intact bodies next) :
    m.toCDynBuffer.getBuffer = some (frames bodies) := by
  obtain ⟨block, off, hHolds, _⟩ := h.holds
  exact hHolds.load_eq

/-- A message is added as one frame, or not at all. -/
theorem Intact.add_spec (h : m.Intact bodies next) {msg : NewMsg} {alloc : Nat → Option Nat}
    (hFresh : ∀ k < 3, ∀ id, alloc k = some id → id < next + 3)
    (hSpare : m.toCDynBuffer.StagesSpare (msg.chunks alloc)) :
    (∃ m', msg.add m alloc = some (m', true) ∧ m'.Intact (bodies ++ [msg.body]) (next + 3)) ∨
      ∃ m', msg.add m alloc = some (m', false) ∧ m'.Intact bodies (next + 3) := by
  obtain ⟨block, off, hHolds, hOff, hId⟩ := h.holds
  rw [← List.append_nil (frames bodies)] at hHolds
  obtain ⟨b', block', off', ok, hRun, hNew, hMaxEq, hLe, hGe, hOff', hId'⟩ :=
    hHolds.appendChunks_spec (UInt32.toNat_zero) h.max_lt h.size_le_max hSpare
  have hBelow : block'.id < next + 3 := by
    rcases hId' with hSame | ⟨chunk, hMem, hAlloc⟩
    · omega
    · obtain ⟨k, hk, hChunk⟩ := NewMsg.alloc_of_mem_chunks hMem
      exact hFresh k hk block'.id (hChunk ▸ hAlloc)
  have hMax' : b'.m_lMaxSize.toNat = maxSize := by
    rw [hMaxEq]
    exact h.max_eq
  have hLe' : b'.m_lSize.toNat ≤ maxSize := by
    rw [← h.max_eq]
    exact hLe
  have hGe' := Nat.le_trans h.size_ge hGe
  have hMsgs := h.msgs_eq
  cases ok with
  | true =>
      have hLength := hNew.length_content
      have hBound := hNew.bound
      simp only [↓reduceIte, List.append_nil] at hNew hLength
      rw [List.length_append] at hLength
      have hShort : ((msg.chunks alloc).flatMap fun chunk => chunk.1.bytes).length < 2 ^ 32 := by
        rw [maxSize] at hLe'
        omega
      rw [msg.bytes_chunks alloc hShort] at hNew
      refine Or.inl ⟨{ toCDynBuffer := b', msgs := m.msgs + 1 }, ?_,
        ⟨block', off', ?_, by simp, hBelow⟩, ?_, hMax', hLe', hGe'⟩
      · simp only [msg.add_eq, addChunks, hRun, Option.map_some, ↓reduceIte]
      · rw [frames_append, frames_cons, frames_nil, List.append_nil]
        exact hNew
      · simp [hMsgs]
  | false =>
      simp only [Bool.false_eq_true, ↓reduceIte] at hNew
      refine Or.inr ⟨{ toCDynBuffer := b', msgs := m.msgs }, ?_,
        ⟨block', off', hNew, ?_, hBelow⟩, hMsgs, hMax', hLe', hGe'⟩
      · simp only [msg.add_eq, addChunks, hRun, Option.map_some, Bool.false_eq_true, ↓reduceIte]
      · intro hEmpty
        rcases hOff' with rfl | rfl
        · exact hOff hEmpty
        · rfl

/-- Otherwise the call runs into undefined behaviour or loses the storage. -/
theorem Intact.add_breaks (h : m.Intact bodies next) {msg : NewMsg} {alloc : Nat → Option Nat}
    (hBad : ¬m.toCDynBuffer.StagesSpare (msg.chunks alloc)) :
    msg.add m alloc = none ∨
      ∃ m', msg.add m alloc = some (m', false) ∧ m'.m_pBuffer = none := by
  obtain ⟨block, off, hHolds, _⟩ := h.holds
  rw [msg.add_eq, addChunks]
  rcases hHolds.appendChunks_breaks h.max_lt h.size_le_max hBad with hNone | ⟨b', hRun, hLost⟩
  · rw [hNone]
    exact Or.inl rfl
  · rw [hRun]
    exact Or.inr ⟨_, rfl, hLost⟩

/-- The length field of the oldest message. -/
theorem Intact.loadLong_eq (h : m.Intact (body :: bodies) next) :
    ∃ iLen, loadLong m.m_pBuffer m.m_pCur = some iLen ∧ iLen.toNat = body.length ∧
      iLen.toNat + 4 ≤ m.m_lLen.toNat := by
  obtain ⟨block, off, hHolds, _⟩ := h.holds
  have hLength := h.length_frames
  have hLen := h.len_le
  rw [frames_cons, List.length_append, length_frame] at hLength
  have hBound := hHolds.bound
  have hLoad : load m.m_pBuffer m.m_pCur 4 = some (encodeLe 4 body.length) := by
    rw [hHolds.buffer_eq, hHolds.cur_eq, load_of_le]
    · rw [slice_take block.bytes off (show 4 ≤ m.m_lLen.toNat by omega), hHolds.content_eq,
        frames_cons, frame, List.append_assoc, List.take_left' (length_encodeLe 4 body.length)]
    · rw [hHolds.size_eq]
      omega
  have hValue : decodeLe (encodeLe 4 body.length) = body.length := by
    apply decodeLe_encodeLe_of_lt
    rw [maxSize] at hLen
    omega
  have hToNat : (UInt32.ofNat body.length).toNat = body.length := by
    rw [maxSize] at hLen
    exact UInt32.toNat_ofNat_of_lt (show body.length < 2 ^ 32 by omega)
  refine ⟨UInt32.ofNat body.length, ?_, hToNat, ?_⟩
  · rw [loadLong, hLoad, Option.map_some, hValue]
  · rw [hToNat]
    omega

/-- Consuming the oldest message. -/
theorem Intact.consumeMsg (h : m.Intact (body :: bodies) next) {iLen : UInt32}
    (hLen : iLen.toNat = body.length) : (m.consumeMsg iLen).Intact bodies next := by
  obtain ⟨block, off, hHolds, _, hId⟩ := h.holds
  have hLength := h.length_frames
  have hLe := h.len_le
  rw [frames_cons, List.length_append, length_frame] at hLength
  have hAdd : (iLen + 4).toNat = 4 + body.length := by
    rw [maxSize] at hLe
    rw [UInt32.toNat_add, hLen]
    simp only [UInt32.reduceToNat]
    omega
  obtain ⟨off', hNew, hSize, hMax, hZero⟩ := hHolds.setDataConsumed_spec (iLen + 4)
  rw [hAdd, frames_cons, List.drop_left' (length_frame body)] at hNew
  refine ⟨⟨block, off', hNew, ?_, hId⟩, ?_, ?_, ?_, ?_⟩
  · rintro rfl
    have hEmpty := hNew.length_content
    apply hZero
    apply UInt32.toNat_inj.mp
    exact hEmpty.symm
  · change m.msgs - 1 = bodies.length
    rw [h.msgs_eq]
    simp
  · change (m.toCDynBuffer.setDataConsumed (iLen + 4)).m_lMaxSize.toNat = maxSize
    rw [hMax, h.max_eq]
  · change (m.toCDynBuffer.setDataConsumed (iLen + 4)).m_lSize.toNat ≤ maxSize
    rw [hSize]
    exact h.size_le
  · change 4 ≤ (m.toCDynBuffer.setDataConsumed (iLen + 4)).m_lSize.toNat
    rw [hSize]
    exact h.size_ge

/-- An empty queue still has four bytes to read, whatever they are. -/
theorem Intact.loadLong_isSome (h : m.Intact [] next) :
    ∃ iLen, loadLong m.m_pBuffer m.m_pCur = some iLen ∧ m.m_lLen = 0 := by
  obtain ⟨block, off, hHolds, hOff, _⟩ := h.holds
  have hLength := h.length_frames
  have hSize := h.size_ge
  have hZero := hOff rfl
  have hFits : off + 4 ≤ block.bytes.length := by
    rw [hHolds.size_eq]
    omega
  have hLen : m.m_lLen = 0 := UInt32.toNat_inj.mp hLength.symm
  have hLoad : load m.m_pBuffer m.m_pCur 4 = some (slice block.bytes off 4) := by
    rw [hHolds.buffer_eq, hHolds.cur_eq, load_of_le hFits]
  exact ⟨_, by rw [loadLong, hLoad, Option.map_some], hLen⟩

theorem Intact.removeMsg_cons (h : m.Intact (body :: bodies) next) :
    ∃ m', m.removeMsg = some (m', true) ∧ m'.Intact bodies next := by
  obtain ⟨iLen, hLoad, hLen, hLe⟩ := h.loadLong_eq
  refine ⟨m.consumeMsg iLen, ?_, h.consumeMsg hLen⟩
  rw [removeMsg, hLoad, Option.map_some, if_neg (by omega)]

theorem Intact.removeMsg_nil (h : m.Intact [] next) : m.removeMsg = some (m, false) := by
  obtain ⟨iLen, hLoad, hLen⟩ := h.loadLong_isSome
  rw [removeMsg, hLoad, Option.map_some, if_pos]
  rw [hLen]
  simp

theorem Intact.removeAll (h : m.Intact bodies next) : m.removeAll.Intact [] next := by
  obtain ⟨block, off, hHolds, _, hId⟩ := h.holds
  exact ⟨⟨block, 0, hHolds.clearData_spec, fun _ => rfl, hId⟩, rfl, h.max_eq, h.size_le,
    h.size_ge⟩

/-- The loop removes as many messages as it is asked for, or all of them. -/
theorem Intact.removeMsgLoop_spec (h : m.Intact bodies next) (bytes : UInt32) (i left : Nat) :
    ∃ m' bytes', m.removeMsgLoop bytes i left =
        some (m', (i : Int) + (min left bodies.length : Nat), bytes') ∧
      m'.Intact (bodies.drop left) next := by
  induction left generalizing m bodies bytes i with
  | zero => exact ⟨m, bytes, by simp [removeMsgLoop], h⟩
  | succ left ih =>
      cases bodies with
      | nil =>
          obtain ⟨iLen, hLoad, hLen⟩ := h.loadLong_isSome
          have hMsgs := h.msgs_eq
          refine ⟨m.removeAll, bytes + m.m_lLen, ?_, h.removeAll⟩
          rw [removeMsgLoop, hLoad, Option.bind_some, if_pos]
          · simp [hMsgs]
          · rw [hLen]
            simp only [UInt32.reduceToNat]
            omega
      | cons body bodies =>
          obtain ⟨iLen, hLoad, hLen, hLe⟩ := h.loadLong_eq
          obtain ⟨m', bytes', hRun, hRest⟩ := ih (h.consumeMsg hLen) (bytes + iLen) (i + 1)
          refine ⟨m', bytes', ?_, hRest⟩
          rw [removeMsgLoop, hLoad, Option.bind_some, if_neg (by omega), hRun]
          simp only [List.length_cons, Option.some.injEq, Prod.mk.injEq, true_and, and_true]
          push_cast
          omega

/-- The number returned is the number of messages removed. -/
theorem Intact.removeMsgs_spec (h : m.Intact bodies next) (n : Int) :
    ∃ m' removed bytes, m.removeMsgs n = some (m', removed, bytes) ∧
      m'.Intact (bodies.drop removed.toNat) next := by
  unfold removeMsgs
  split_ifs with hn
  · refine ⟨m, n, 0, rfl, ?_⟩
    rw [Int.toNat_of_nonpos hn]
    exact h
  · obtain ⟨m', bytes, hRun, hRest⟩ := h.removeMsgLoop_spec 0 0 n.toNat
    refine ⟨m', _, bytes, hRun, ?_⟩
    have hDrop : bodies.drop (min n.toNat bodies.length) = bodies.drop n.toNat := by
      rcases Nat.le_total n.toNat bodies.length with hLe | hGe
      · rw [Nat.min_eq_left hLe]
      · rw [Nat.min_eq_right hGe, List.drop_of_length_le hGe,
          List.drop_of_length_le (Nat.le_refl _)]
    have hRemoved : ((0 : Nat) + (min n.toNat bodies.length : Nat) : Int).toNat =
        min n.toNat bodies.length := by
      omega
    rw [hRemoved, hDrop]
    exact hRest

/-- A copy that is made at all is a copy of the whole queue. -/
theorem Intact.copyFrom_spec {old : List (List UInt8)} (h : m.Intact old next) {copy_ : CDynMsg}
    (hCopy : copy_.Intact bodies next) {alloc : Option Nat}
    (hFresh : ∀ id, alloc = some id → id < next + 1) (hRun : m.copyFrom copy_ alloc = some m') :
    m'.Intact bodies (next + 1) := by
  obtain ⟨block, off, hHolds, _, hId⟩ := h.holds
  obtain ⟨b', hBase, rfl⟩ := Option.map_eq_some_iff.mp hRun
  have hSum : m.m_lLen.toNat + copy_.m_lLen.toNat < 2 ^ 32 := by
    have hLen := h.len_le
    have hLenCopy := hCopy.len_le
    rw [maxSize] at hLen hLenCopy
    omega
  obtain ⟨block', hNew, hMax, hGe, hLe, hId'⟩ :=
    hHolds.copyFrom_spec hCopy.getBuffer_eq hCopy.length_frames h.max_lt h.size_le_max hSum hBase
  have hMaxEq := h.max_eq
  refine ⟨⟨block', 0, hNew, fun _ => rfl, ?_⟩, hCopy.msgs_eq, ?_, ?_, ?_⟩
  · rcases hId' with hSame | hAlloc
    · omega
    · exact hFresh block'.id hAlloc
  · change b'.m_lMaxSize.toNat = maxSize
    rw [hMax, hMaxEq]
  · change b'.m_lSize.toNat ≤ maxSize
    omega
  · exact Nat.le_trans h.size_ge hGe

theorem Intact.constructCopy_spec {copy_ : CDynMsg} (h : copy_.Intact bodies next)
    {alloc : Option Nat} (hFresh : ∀ id, alloc = some id → id < next + 2)
    (hRun : constructCopy copy_ next alloc = some m) : m.Intact bodies (next + 2) := by
  have hNew : ({ toCDynBuffer := CDynBuffer.construct copy_.m_lSize copy_.m_lMaxSize next } :
      CDynMsg).Intact [] (next + 1) :=
    intact_of_construct h.size_ge h.size_le rfl rfl rfl rfl h.max_eq rfl
  exact hNew.copyFrom_spec (h.mono (Nat.le_add_right _ 1)) hFresh hRun

end CDynMsg
end CppPerf.Buffer
