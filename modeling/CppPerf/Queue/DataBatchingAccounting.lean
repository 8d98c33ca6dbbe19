import CppPerf.Queue.DataBatchingBuffer
import CppPerf.Semantics.Run
import CppPerf.Semantics.Tally
import Mathlib.Data.UInt

/-! The counters of the batching buffer against its queue. They agree along a
run exactly as long as `clear` finds no records in the queue. -/
namespace CppPerf.Queue.DataBatchingBuffer

open Tally Transition

variable {Handle Block : Type*} (api : SqfApi Handle Block)

inductive Call (Block : Type*) where
  | add2Queue
  | addDataSqf (sqf : Block) (now : UInt32) (alloc : Option Nat)
  | heartbeat (now : UInt32)
  | addTal4NoBatch (pTal4 : TAL4_HDR) (alloc : Option Nat)
  | addTal4AsIs (pTal4 : TAL4_HDR)
  | processData
  | processDataAll (dList : List QDATA)
  | clear
  | clearStats

def step : Step (DataBatchingBuffer Handle) (Call Block)
  | s, .add2Queue => some (s.add2Queue api)
  | s, .addDataSqf sqf now alloc => some (s.addDataSqf api sqf now alloc)
  | s, .heartbeat now => some (s.heartbeat api now)
  | s, .addTal4NoBatch pTal4 alloc => some (s.addTal4NoBatch pTal4 alloc)
  | s, .addTal4AsIs pTal4 => some (s.addTal4AsIs pTal4).1
  | s, .processData => some s.processData.1
  | s, .processDataAll dList => some (s.processDataAll dList).1
  | s, .clear => some s.clear
  | s, .clearStats => some s.clearStats

/-- The records of the queued blocks, modulo 2^32. -/
def queuedRec (s : DataBatchingBuffer Handle) : UInt32 := (s.dataQueue.map QDATA.iRec).sum

/-- The counters mirror the queue, and the back-pressure test sees it. -/
structure Accounted (s : DataBatchingBuffer Handle) : Prop where
  size_eq : s.dwQSize = UInt32.ofNat s.dataQueue.length
  total_eq : s.dwTotalIn - s.dwTotalOut = s.dwQSize
  rec_eq : s.dwTotalInRec - s.dwTotalOutRec = s.queuedRec
  overLimit_iff : s.overLimit = true ↔ s.dwMaxAllowedQSize < s.queuedRec

/-- No records are left in a queue that is cleared, or in one that looks empty
when the counters are. -/
def LeavesNoRecords (s : DataBatchingBuffer Handle) : Call Block → Prop
  | .clear => s.queuedRec = 0
  | .clearStats => s.empty = true → s.queuedRec = 0
  | _ => True

/-- The queue and the five counters, without the rest of the buffer. -/
structure Ledger where
  dataQueue : List QDATA
  dwQSize : UInt32
  dwTotalIn : UInt32
  dwTotalOut : UInt32
  dwTotalInRec : UInt32
  dwTotalOutRec : UInt32

def ledger (s : DataBatchingBuffer Handle) : Ledger :=
  ⟨s.dataQueue, s.dwQSize, s.dwTotalIn, s.dwTotalOut, s.dwTotalInRec, s.dwTotalOutRec⟩

/-- Blocks and records, as totals of the queue. -/
structure Ledger.Balanced (l : Ledger) : Prop where
  size_eq : l.dwQSize = UInt32.ofNat l.dataQueue.length
  blocks : Tally.Balanced (fun _ => (1 : UInt32)) l.dataQueue l.dwTotalIn l.dwTotalOut
  records : Tally.Balanced QDATA.iRec l.dataQueue l.dwTotalInRec l.dwTotalOutRec

theorem total_one (queue : List QDATA) :
    total (fun _ => (1 : UInt32)) queue = UInt32.ofNat queue.length := by
  induction queue with
  | nil => rfl
  | cons item rest ih =>
      rw [total_cons, ih, List.length_cons, UInt32.ofNat_add, UInt32.add_comm]
      rfl

variable {s s' : DataBatchingBuffer Handle}

/-- Balanced books are what the counters are for. -/
theorem accounted_iff_balanced : s.Accounted ↔ s.ledger.Balanced := by
  constructor
  · intro h
    refine ⟨h.size_eq, ?_, h.rec_eq⟩
    rw [Tally.Balanced, total_one]
    exact h.total_eq.trans h.size_eq
  · intro h
    have hBlocks : s.dwTotalIn - s.dwTotalOut = total (fun _ => (1 : UInt32)) s.dataQueue :=
      h.blocks
    have hRec : s.dwTotalInRec - s.dwTotalOutRec = s.queuedRec := h.records
    refine ⟨h.size_eq, ?_, hRec, ?_⟩
    · rw [hBlocks, total_one]
      exact h.size_eq.symm
    · rw [overLimit, decide_eq_true_iff, hRec]

section Frames

variable (s : DataBatchingBuffer Handle)

theorem ledger_allocMemSQF (alloc : Option Nat) :
    (s.allocMemSQF api alloc).1.ledger = s.ledger := by
  cases alloc <;> rfl

theorem ledger_queueWaitLoop (left : Nat) : (s.queueWaitLoop left).1.ledger = s.ledger := by
  induction left generalizing s with
  | zero => rfl
  | succ left ih =>
      rw [queueWaitLoop]
      split_ifs
      · rfl
      · exact ih _

theorem ledger_waitForRoom : s.waitForRoom.1.ledger = s.ledger := by
  unfold waitForRoom
  split_ifs
  · exact s.ledger_queueWaitLoop 10
  · rfl

theorem ledger_markStart (now : UInt32) : (s.markStart api now).ledger = s.ledger := by
  unfold markStart
  split_ifs <;> rfl

theorem ledger_ensureMem (alloc : Option Nat) : (s.ensureMem api alloc).1.ledger = s.ledger := by
  unfold ensureMem
  split_ifs
  · exact ledger_allocMemSQF api s alloc
  · rfl

theorem ledger_updateMax : s.updateMax.ledger = s.ledger := by
  unfold updateMax
  split_ifs <;> rfl

theorem ledger_construct (now : UInt32) (xcl : Option (String → UInt32 → UInt32))
    (alloc : Option Nat) : (construct api now xcl alloc).ledger = ⟨[], 0, 0, 0, 0, 0⟩ := by
  cases alloc <;> rfl

end Frames

theorem balanced_zero : Ledger.Balanced ⟨[], 0, 0, 0, 0, 0⟩ :=
  ⟨rfl, Tally.balanced_zero, Tally.balanced_zero⟩

theorem balanced_pushBack (h : s.ledger.Balanced) (data : QDATA) :
    (s.pushBack data).ledger.Balanced := by
  refine ⟨?_, h.blocks.push data, h.records.push data⟩
  have hSize : s.dwQSize = UInt32.ofNat s.dataQueue.length := h.size_eq
  change s.dwQSize + 1 = UInt32.ofNat (s.dataQueue ++ [data]).length
  rw [hSize, List.length_append, UInt32.ofNat_add]
  rfl

theorem balanced_add2Queue (h : s.ledger.Balanced) : (s.add2Queue api).ledger.Balanced := by
  unfold add2Queue
  split_ifs
  · exact h
  · exact h
  · exact balanced_pushBack h _

theorem balanced_heartbeat (h : s.ledger.Balanced) (now : UInt32) :
    (s.heartbeat api now).ledger.Balanced := by
  unfold heartbeat
  split_ifs
  · exact balanced_add2Queue api h
  · exact h

theorem balanced_addTal4NoBatch (h : s.ledger.Balanced) (pTal4 : TAL4_HDR) (alloc : Option Nat) :
    (s.addTal4NoBatch pTal4 alloc).ledger.Balanced := by
  rw [← s.ledger_waitForRoom] at h
  unfold addTal4NoBatch
  cases hWait : s.waitForRoom with
  | mk s₁ ok =>
      rw [hWait] at h
      cases ok with
      | false => exact h
      | true =>
          cases alloc with
          | none => exact h
          | some pTal4New => exact balanced_pushBack h _

theorem balanced_addTal4AsIs (h : s.ledger.Balanced) (pTal4 : TAL4_HDR) :
    (s.addTal4AsIs pTal4).1.ledger.Balanced := by
  rw [← s.ledger_waitForRoom] at h
  unfold addTal4AsIs
  cases hWait : s.waitForRoom with
  | mk s₁ ok =>
      rw [hWait] at h
      cases ok with
      | false => exact h
      | true => exact balanced_pushBack h _

theorem balanced_addDataSqf (h : s.ledger.Balanced) (sqf : Block) (now : UInt32)
    (alloc : Option Nat) : (s.addDataSqf api sqf now alloc).ledger.Balanced := by
  have hSent : (s.sendFull api (api.block_size_ sqf) now).ledger.Balanced := by
    unfold sendFull
    split_ifs
    · exact balanced_add2Queue api h
    · exact h
  rw [← ledger_markStart api _ now, ← ledger_ensureMem api _ alloc] at hSent
  unfold addDataSqf
  cases hMem : ((s.sendFull api (api.block_size_ sqf) now).markStart api now).ensureMem api
      alloc with
  | mk s₁ ok =>
      rw [hMem] at hSent
      cases ok <;> exact hSent

theorem balanced_processData (h : s.ledger.Balanced) : s.processData.1.ledger.Balanced := by
  unfold processData
  split_ifs
  · exact h
  · have hSame := s.ledger_updateMax
    cases hQueue : s.updateMax.dataQueue with
    | nil =>
        rw [← hSame] at h
        exact h
    | cons qData rest =>
        have hOld : s.ledger.dataQueue = qData :: rest := by
          rw [← hSame]
          exact hQueue
        have hSize := h.size_eq
        have hBlocks := h.blocks
        have hRecords := h.records
        rw [hOld] at hSize hBlocks hRecords
        have hNew : Ledger.Balanced ⟨rest, s.ledger.dwQSize - 1, s.ledger.dwTotalIn,
            s.ledger.dwTotalOut + 1, s.ledger.dwTotalInRec,
            s.ledger.dwTotalOutRec + qData.iRec⟩ := by
          refine ⟨?_, hBlocks.pop, hRecords.pop⟩
          change s.ledger.dwQSize - 1 = UInt32.ofNat rest.length
          rw [hSize, List.length_cons, UInt32.ofNat_add]
          exact add_sub_cancel_right _ _
        rw [← hSame] at hNew
        exact hNew

/-- The loop of `processDataAll` counts every block and its records. -/
theorem ledger_foldl_countOut (queue : List QDATA) :
    (queue.foldl countOut s).ledger =
      { s.ledger with
        dwTotalOut := s.ledger.dwTotalOut + total (fun _ => (1 : UInt32)) queue
        dwTotalOutRec := s.ledger.dwTotalOutRec + total QDATA.iRec queue } := by
  induction queue generalizing s with
  | nil =>
      rw [List.foldl_nil, total_nil, total_nil, add_zero, add_zero]
  | cons item rest ih =>
      rw [List.foldl_cons, ih, total_cons, total_cons, ← add_assoc, ← add_assoc]
      rfl

theorem balanced_processDataAll (h : s.ledger.Balanced) (dList : List QDATA) :
    (s.processDataAll dList).1.ledger.Balanced := by
  unfold processDataAll
  split_ifs
  · exact h
  · have hOut := ledger_foldl_countOut (s := s.updateMax) s.dataQueue
    rw [s.ledger_updateMax] at hOut
    have hNew : Ledger.Balanced { (s.dataQueue.foldl countOut s.updateMax).ledger with
        dwQSize := 0, dataQueue := [] } := by
      rw [hOut]
      exact ⟨rfl, h.blocks.drain, h.records.drain⟩
    exact hNew

/-- What `clear` leaves is balanced if it found no records. -/
theorem balanced_clear_iff (h : s.ledger.Balanced) :
    s.clear.ledger.Balanced ↔ s.queuedRec = 0 := by
  constructor
  · intro hNew
    exact h.records.forget_iff.mp hNew.records
  · intro hNone
    refine ⟨rfl, ?_, h.records.forget_iff.mpr hNone⟩
    exact balanced_nil_iff.mpr rfl

/-- Counters that start again from zero are balanced if no records are queued. -/
theorem balanced_clearStats_iff (h : s.ledger.Balanced) :
    s.clearStats.ledger.Balanced ↔ (s.empty = true → s.queuedRec = 0) := by
  have hSame : s.clearStats1.empty = s.empty := rfl
  unfold clearStats
  rw [hSame]
  cases hEmpty : s.empty with
  | false =>
      rw [if_neg Bool.false_ne_true]
      exact ⟨fun _ hFalse => Bool.noConfusion hFalse, fun _ => h⟩
  | true =>
      rw [if_pos rfl]
      simp only [empty, Bool.and_eq_true, beq_iff_eq] at hEmpty
      constructor
      · intro hNew _
        exact Balanced.reset_iff.mp hNew.records
      · intro hNone
        have hSize : s.dwQSize = UInt32.ofNat s.dataQueue.length := h.size_eq
        refine ⟨hEmpty.2.symm.trans hSize, Balanced.reset_iff.mpr ?_,
          Balanced.reset_iff.mpr (hNone rfl)⟩
        change total (fun _ => (1 : UInt32)) s.dataQueue = 0
        rw [total_one, ← hSize, hEmpty.2]

/-- A call keeps the books balanced if and only if it meets the guard. -/
theorem balanced_step_iff (h : s.ledger.Balanced) {call : Call Block}
    (hStep : step api s call = some s') : s'.ledger.Balanced ↔ LeavesNoRecords s call := by
  cases call <;> cases hStep
  case add2Queue => exact iff_of_true (balanced_add2Queue api h) trivial
  case addDataSqf sqf now alloc =>
    exact iff_of_true (balanced_addDataSqf api h sqf now alloc) trivial
  case heartbeat now => exact iff_of_true (balanced_heartbeat api h now) trivial
  case addTal4NoBatch pTal4 alloc =>
    exact iff_of_true (balanced_addTal4NoBatch h pTal4 alloc) trivial
  case addTal4AsIs pTal4 => exact iff_of_true (balanced_addTal4AsIs h pTal4) trivial
  case processData => exact iff_of_true (balanced_processData h) trivial
  case processDataAll dList => exact iff_of_true (balanced_processDataAll h dList) trivial
  case clear => exact balanced_clear_iff h
  case clearStats => exact balanced_clearStats_iff h

/-- From a fresh buffer, the counters mirror the queue all along a run if and
only if no call forgets records that are queued. -/
theorem accounted_iff_leavesNoRecords (now : UInt32) (xcl : Option (String → UInt32 → UInt32))
    (alloc : Option Nat) (calls : List (Call Block)) :
    Always (step api) Accounted (construct api now xcl alloc) calls ↔
      Guarded (step api) LeavesNoRecords (construct api now xcl alloc) calls := by
  have hStart : (construct api now xcl alloc).Accounted := by
    rw [accounted_iff_balanced, ledger_construct]
    exact balanced_zero
  have hDefined : ∀ (s : DataBatchingBuffer Handle) (call : Call Block), True →
      ∃ s', step api s call = some s' ∧ True := by
    intro s call _
    cases call <;> exact ⟨_, rfl, trivial⟩
  obtain ⟨finish, hFinish, _⟩ := run_of_invariant hDefined calls trivial
  refine always_iff_guarded Accounted ?_ (fun _ h => h) ?_ hStart hFinish
  · intro s call s' h hGuard hStep
    rw [accounted_iff_balanced] at h ⊢
    exact (balanced_step_iff api h hStep).mpr hGuard
  · intro s call s' h hNot hStep hNew
    rw [accounted_iff_balanced] at h hNew
    exact hNot ((balanced_step_iff api h hStep).mp hNew)

/-- A handle that only remembers its size and how many messages it has. -/
def countingSqf : SqfApi (UInt32 × UInt32) UInt32 where
  fresh := (0, 0)
  attach := fun _ _ _ => (4, 0)
  size := Prod.fst
  num_messages := Prod.snd
  transfer := fun _ => (some 0, (0, 0))
  clear := fun _ => (4, 0)
  append := fun sqf block => (sqf.1 + block, sqf.2 + 1)
  block_size_ := id

/-- After a clear with five records in the queue, five records count as queued. -/
theorem clear_forgets_records :
    ¬Always (step countingSqf) Accounted (construct countingSqf 0 none (some 1))
        [.addTal4AsIs ⟨4096, 100, 5⟩, .clear] := by
  intro hAlways
  obtain ⟨finish, hFinish⟩ : ∃ finish, finish = (addTal4AsIs
      (construct countingSqf 0 none (some 1)) ⟨4096, 100, 5⟩).1.clear := ⟨_, rfl⟩
  have hRun : run (step countingSqf) (construct countingSqf 0 none (some 1))
      [.addTal4AsIs ⟨4096, 100, 5⟩, .clear] = some finish := by
    rw [hFinish]
    rfl
  have hRec := (hAlways.finish hRun).rec_eq
  rw [hFinish] at hRec
  exact absurd hRec (by decide)

end CppPerf.Queue.DataBatchingBuffer
