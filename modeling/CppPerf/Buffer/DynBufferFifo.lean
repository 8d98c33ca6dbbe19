import CppPerf.Buffer.DynBufferSpec
import CppPerf.Semantics.Run

/-! The byte buffer as a queue of bytes, whichever way each append finds room. -/
namespace CppPerf.Buffer.CDynBuffer

open Heap Transition

/-- The calls of a client that uses the buffer as a queue. -/
inductive FifoCall where
  | append (data : Chars) (alloc : Option Nat)
  | consume (lLen : UInt32)
  | clear

/-- A call, with the bytes appended and not yet consumed. The runs considered
are those in which every append is at most the maximum long and succeeds. -/
def fifoStep : Step (CDynBuffer × List UInt8) FifoCall
  | (b, queue), .append data alloc =>
      if data.bytes.length ≤ b.m_lMaxSize.toNat then
        match b.appendData data alloc with
        | some (b', true) => some (b', queue ++ data.bytes)
        | _ => none
      else none
  | (b, queue), .consume lLen => some (b.setDataConsumed lLen, queue.drop lLen.toNat)
  | (b, _), .clear => some (b.clearData, [])

/-- The buffer presents the queue, its sizes are in order, and no append can
fail an assertion or write outside the storage. -/
structure IsFifo (b : CDynBuffer) (queue : List UInt8) : Prop where
  getBuffer_eq : b.getBuffer = some queue
  bounds : ∃ block off, b.m_pBuffer = some block ∧ block.bytes.length = b.m_lSize.toNat ∧
    distance b.m_pBuffer b.m_pCur = some off ∧ off + b.m_lLen.toNat ≤ b.m_lSize.toNat ∧
    b.m_lSize.toNat ≤ b.m_lMaxSize.toNat
  appendData_isSome : ∀ (data : Chars) (alloc : Option Nat),
    data.bytes.length ≤ b.m_lMaxSize.toNat → (b.appendData data alloc).isSome

/-- Invariant of the runs from a buffer whose maximum is below `2 ^ 31`. -/
structure FifoInv (b : CDynBuffer) (queue : List UInt8) : Prop where
  holds : ∃ block off, b.Holds block off queue
  size_le : b.m_lSize.toNat ≤ b.m_lMaxSize.toNat
  max_lt : b.m_lMaxSize.toNat < 2 ^ 31

theorem FifoInv.sum_lt {b : CDynBuffer} {queue : List UInt8} (h : b.FifoInv queue) {n : Nat}
    (hn : n ≤ b.m_lMaxSize.toNat) : b.m_lLen.toNat + n < 2 ^ 32 := by
  obtain ⟨block, off, hHolds⟩ := h.holds
  have hBound := hHolds.bound
  have hSize := h.size_le
  have hMax := h.max_lt
  omega

theorem FifoInv.isFifo {b : CDynBuffer} {queue : List UInt8} (h : b.FifoInv queue) :
    b.IsFifo queue := by
  obtain ⟨block, off, hHolds⟩ := h.holds
  have hBound := hHolds.bound
  refine ⟨hHolds.load_eq, ⟨block, off, hHolds.buffer_eq, hHolds.size_eq, ?_, hBound, h.size_le⟩, ?_⟩
  · rw [hHolds.buffer_eq, hHolds.cur_eq]
    apply distance_of_le
    rw [hHolds.size_eq]
    omega
  · intro data alloc hLen
    rcases b.appendData_cases data alloc (h.sum_lt hLen) with ⟨b', hRun⟩ | ⟨hSum, hStrand, hAlloc⟩
    · rw [hRun]
      rfl
    · obtain ⟨b', _, _, hRun, _⟩ := hHolds.appendData_spec h.max_lt hSum hStrand hAlloc
      rw [hRun]
      rfl

/-- An append that returns true has taken one of the three ways to find room. -/
theorem FifoInv.append {b b' : CDynBuffer} {queue : List UInt8} (h : b.FifoInv queue)
    {data : Chars} {alloc : Option Nat} (hLen : data.bytes.length ≤ b.m_lMaxSize.toNat)
    (hRun : b.appendData data alloc = some (b', true)) : b'.FifoInv (queue ++ data.bytes) := by
  obtain ⟨block, off, hHolds⟩ := h.holds
  have hCases := b.appendData_cases data alloc (h.sum_lt hLen)
  rcases hCases with ⟨c, hRefused⟩ | ⟨hSum, hStrand, hAlloc⟩
  · rw [hRun] at hRefused
    cases hRefused
  · obtain ⟨c, block', off', hAccepted, hNew, _, hMax, hSize, _⟩ :=
      hHolds.appendData_spec h.max_lt hSum hStrand hAlloc
    obtain rfl : b' = c := congrArg Prod.fst (Option.some.inj (hRun.symm.trans hAccepted))
    have hNext := b.nextSize_bounds data.len h.max_lt (by rw [data.toNat_len]; exact hSum)
    refine ⟨⟨block', off', hNew⟩, ?_, ?_⟩
    · rw [hSize, hMax]
      split_ifs
      · exact hNext.2
      · exact h.size_le
    · rw [hMax]
      exact h.max_lt

theorem fifoStep_inv (s : CDynBuffer × List UInt8) (call : FifoCall)
    (s' : CDynBuffer × List UInt8) (h : s.1.FifoInv s.2) (hStep : fifoStep s call = some s') :
    s'.1.FifoInv s'.2 := by
  obtain ⟨b, queue⟩ := s
  obtain ⟨block, off, hHolds⟩ := h.holds
  cases call with
  | append data alloc =>
      simp only [fifoStep] at hStep
      split_ifs at hStep with hLen
      rcases hRun : b.appendData data alloc with _ | ⟨b', ok⟩
      · simp [hRun] at hStep
      · cases ok with
        | false => simp [hRun] at hStep
        | true =>
            simp only [hRun, Option.some.injEq] at hStep
            subst s'
            exact h.append hLen hRun
  | consume lLen =>
      simp only [fifoStep, Option.some.injEq] at hStep
      subst s'
      obtain ⟨off', hNew, hSize, hMax, _⟩ := hHolds.setDataConsumed_spec lLen
      refine ⟨⟨block, off', hNew⟩, ?_, ?_⟩
      · rw [hSize, hMax]
        exact h.size_le
      · rw [hMax]
        exact h.max_lt
  | clear =>
      simp only [fifoStep, Option.some.injEq] at hStep
      subst s'
      exact ⟨⟨block, 0, hHolds.clearData_spec⟩, h.size_le, h.max_lt⟩

/-- In every state of every run the buffer is the queue of the bytes appended
and not yet consumed, and its bounds hold. -/
theorem always_isFifo (initSize maxSize : UInt32) (id : Nat) (hInit : initSize ≤ maxSize)
    (hMax : maxSize.toNat < 2 ^ 31) (calls : List FifoCall) :
    Always fifoStep (fun s => s.1.IsFifo s.2) (construct initSize maxSize id, []) calls := by
  have hStart : (construct initSize maxSize id).FifoInv [] :=
    ⟨⟨_, _, construct_holds initSize maxSize id⟩, UInt32.le_iff_toNat_le.mp hInit, hMax⟩
  exact (always_of_invariant fifoStep_inv calls hStart).mono fun s h => h.isFifo

theorem always_isFifo_grow_and_compact :
    Always fifoStep (fun s => s.1.IsFifo s.2) (construct 4 200 0, [])
      [.append ⟨[1, 2, 3], by decide⟩ none, .consume 2, .append ⟨[4, 5], by decide⟩ none,
        .append ⟨[6, 7, 8, 9], by decide⟩ (some 1), .clear] :=
  always_isFifo 4 200 0 (by decide) (by decide) _

end CppPerf.Buffer.CDynBuffer
