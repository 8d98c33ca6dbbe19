import CppPerf.Buffer.DynBufferSpec
import CppPerf.Memory.Objects
import CppPerf.Semantics.Run

/-! What a refused append leaves behind. One of the three exits of `resize`
returns after the storage was moved into a local, and takes it along. -/
namespace CppPerf.Buffer.CDynBuffer

open Heap Transition

/-- The public calls on one buffer that change it. -/
inductive LocalCall where
  | resize (len : UInt32)
  | append (data : Chars)
  | reserve (max_ : UInt32)
  | consume (lLen : UInt32)
  | consumeLong
  | clear
  | dataRead (data : Chars)
  | clearStats

/-- The buffer afterwards and what the call returns; `true` for `void`. -/
def perform (b : CDynBuffer) (alloc : Option Nat) : LocalCall → Option (CDynBuffer × Bool)
  | .resize len => b.resize len alloc
  | .append data => b.appendData data alloc
  | .reserve max_ => (b.reserve max_ alloc).map (·, true)
  | .consume lLen => some (b.setDataConsumed lLen, true)
  | .consumeLong => b.consumeLong.map (·, true)
  | .clear => some (b.clearData, true)
  | .dataRead data => (b.dataRead data).map (·, true)
  | .clearStats => some (b.clearStats, true)

structure Answer where
  ok : Bool
  bytes : Option (List UInt8)
  size : UInt32
  len : UInt32

/-- What a client sees of a sequence of calls: after each one its result, the
bytes to read, and the two sizes. It ends at undefined behaviour. -/
def answers (b : CDynBuffer) : List (LocalCall × Option Nat) → List (Option Answer)
  | [] => []
  | (call, alloc) :: rest =>
      match b.perform alloc call with
      | none => [none]
      | some (b', ok) => some ⟨ok, b'.getBuffer, b'.m_lSize, b'.m_lLen⟩ :: answers b' rest

/-- A refused call lost nothing, and is not noticed later. -/
structure LosesNothing (before after : CDynBuffer) : Prop where
  owns : after.m_pBuffer.isSome = true
  getBuffer_eq : after.getBuffer = before.getBuffer
  size_eq : after.m_lSize = before.m_lSize
  len_eq : after.m_lLen = before.m_lLen
  answers_eq : ∀ calls, after.answers calls = before.answers calls

/-- The call would strand the buffer. -/
def StrandedBy (b : CDynBuffer) : LocalCall → Prop
  | .resize len => b.Stranded len
  | .append data => b.Stranded data.len
  | .reserve max_ => (b.raiseMax max_).Stranded ((max_ - b.m_lLen) * 2 / 3)
  | _ => False

/-- All buffers of a program, and the last call if it was refused: on which
buffer, and what that buffer was before. -/
structure World (ι : Type*) where
  buffers : Objects ι CDynBuffer
  refused : Option (ι × CDynBuffer)

inductive WorldCall (ι : Type*) where
  | construct (i : ι) (initSize maxSize : UInt32)
  | on (i : ι) (call : LocalCall) (ok : Bool)
  | swap (i j : ι) (ok : Bool)
  | copyFrom (i j : ι) (ok : Bool)

variable {ι : Type*} [DecidableEq ι]

/-- One call on existing buffers. `ok` tells whether an allocation succeeds. -/
def step : Step (World ι) (WorldCall ι)
  | w, .construct i initSize maxSize =>
      some ⟨(w.buffers.set i (construct initSize maxSize w.buffers.next)).advance 1, none⟩
  | w, .on i call ok =>
      (w.buffers.get i).bind fun b =>
        (b.perform (w.buffers.alloc ok) call).map fun (b', res) =>
          ⟨(w.buffers.set i b').advance 1, if res then none else some (i, b)⟩
  | w, .swap i j ok =>
      if i = j then none
      else
        (w.buffers.get i).bind fun b =>
          (w.buffers.get j).bind fun pair =>
            (b.swapBuffer pair (w.buffers.alloc ok)).map fun ((b', pair'), _) =>
              ⟨((w.buffers.set i b').set j pair').advance 1, none⟩
  | w, .copyFrom i j ok =>
      if i = j then none
      else
        (w.buffers.get i).bind fun b =>
          (w.buffers.get j).bind fun copy_ =>
            (b.copyFrom copy_ (w.buffers.alloc ok)).map fun b' =>
              ⟨(w.buffers.set i b').advance 1, none⟩

def World.initial : World ι := ⟨Objects.empty, none⟩

/-- Every buffer owns its storage, and the last refusal lost nothing. -/
def RefusalsKeep (w : World ι) : Prop :=
  (w.buffers.All fun b => b.m_pBuffer.isSome = true) ∧
    ∀ i before, w.refused = some (i, before) →
      ∃ b, w.buffers.get i = some b ∧ LosesNothing before b

/-- No call strands the buffer it is made on. -/
def SparesStorage (w : World ι) : WorldCall ι → Prop
  | .on i call _ => ∀ b, w.buffers.get i = some b → ¬b.StrandedBy call
  | _ => True

section Statistics

/-- The buffer without its statistics. -/
def strip (b : CDynBuffer) : CDynBuffer := b.clearStats

/-- Results up to statistics. -/
def stripResult (r : Option (CDynBuffer × Bool)) : Option (CDynBuffer × Bool) :=
  r.map fun p => (p.1.strip, p.2)

theorem strip_eq_of_kept {b b' : CDynBuffer} (h : b.Kept b') : b'.strip = b.strip := by
  obtain ⟨h₁, h₂, h₃, h₄, h₅⟩ := h
  simp only [strip, clearStats, h₁, h₂, h₃, h₄, h₅]

theorem stripResult_map (r : Option CDynBuffer) :
    stripResult (r.map (·, true)) = (r.map strip).map (·, true) := by
  cases r <;> rfl

theorem stripResult_congr {r r' : Option CDynBuffer} (h : r.map strip = r'.map strip) :
    stripResult (r.map (·, true)) = stripResult (r'.map (·, true)) := by
  rw [stripResult_map, stripResult_map, h]

theorem stripResult_bind {r r' : Option (CDynBuffer × Bool)}
    {f : CDynBuffer × Bool → Option (CDynBuffer × Bool)} (h : stripResult r = stripResult r')
    (hf : ∀ c c' ok, c.strip = c'.strip → stripResult (f (c, ok)) = stripResult (f (c', ok))) :
    stripResult (r.bind f) = stripResult (r'.bind f) := by
  cases r with
  | none =>
      cases r' with
      | none => rfl
      | some p' => simp [stripResult] at h
  | some p =>
      cases r' with
      | none => simp [stripResult] at h
      | some p' =>
          obtain ⟨c, ok⟩ := p
          obtain ⟨c', ok'⟩ := p'
          simp only [stripResult, Option.map_some, Option.some.injEq, Prod.mk.injEq] at h
          obtain ⟨hStrip, rfl⟩ := h
          exact hf c c' ok hStrip

private theorem grow_strip (b : CDynBuffer) (newSize : UInt32) (id : Nat) :
    (b.strip.countAttempted.grow newSize id).map strip =
      (b.countAttempted.grow newSize id).map strip := by
  unfold grow
  change (((load b.m_pBuffer b.m_pCur b.m_lLen.toNat).bind _).map strip) =
    (((load b.m_pBuffer b.m_pCur b.m_lLen.toNat).bind _).map strip)
  cases load b.m_pBuffer b.m_pCur b.m_lLen.toNat with
  | none => rfl
  | some live =>
      simp only [Option.bind_some, Option.map_map]
      rfl

private theorem compact_strip (b : CDynBuffer) :
    b.strip.compact.map strip = b.compact.map strip := by
  unfold compact
  change (((load b.m_pBuffer b.m_pCur b.m_lLen.toNat).bind _).map strip) =
    (((load b.m_pBuffer b.m_pCur b.m_lLen.toNat).bind _).map strip)
  cases load b.m_pBuffer b.m_pCur b.m_lLen.toNat with
  | none => rfl
  | some live =>
      simp only [Option.bind_some, Option.map_map]
      rfl

theorem resize_strip (b : CDynBuffer) (len : UInt32) (alloc : Option Nat) :
    stripResult (b.strip.resize len alloc) = stripResult (b.resize len alloc) := by
  rw [resize_eq, resize_eq]
  change stripResult (if b.Refuses len then _ else if b.Stranded len then _ else
    if b.m_lSize < b.m_lLen + len then _ else _) = _
  split_ifs with hMax hStrand hSize
  · rfl
  · rfl
  · cases alloc with
    | none => rfl
    | some id => exact stripResult_congr (b.grow_strip (b.nextSize len) id)
  · change stripResult ((b.hasRoom len).bind _) = _
    cases b.hasRoom len with
    | none => rfl
    | some room =>
        cases room with
        | true => rfl
        | false => exact stripResult_congr b.compact_strip

private theorem write_strip (b : CDynBuffer) (data : Chars) :
    (b.strip.write data).map strip = (b.write data).map strip := by
  unfold write
  change (if b.hasRoom data.len = some true then _ else none : Option CDynBuffer).map strip = _
  split_ifs with hRoom
  · change ((store b.m_pBuffer (shift b.m_pCur b.m_lLen.toNat) data.bytes).map _).map strip = _
    rw [Option.map_map, Option.map_map]
    rfl
  · rfl

theorem appendData_strip (b : CDynBuffer) (data : Chars) (alloc : Option Nat) :
    stripResult (b.strip.appendData data alloc) = stripResult (b.appendData data alloc) := by
  apply stripResult_bind (b.resize_strip data.len alloc)
  intro c c' ok hStrip
  cases ok with
  | false =>
      simp only [Bool.false_eq_true, ↓reduceIte, stripResult, Option.map_some, hStrip]
  | true =>
      have hWrite : (c.write data).map strip = (c'.write data).map strip := by
        rw [← c.write_strip, hStrip, c'.write_strip]
      have hPeak (r : Option CDynBuffer) :
          stripResult (r.map fun b => (b.checkPeak, true)) = (r.map strip).map (·, true) := by
        cases r <;> rfl
      simp only [↓reduceIte]
      rw [hPeak, hPeak, hWrite]

private theorem setDataConsumed_strip (b : CDynBuffer) (lLen : UInt32) :
    (b.strip.setDataConsumed lLen).strip = (b.setDataConsumed lLen).strip := by
  unfold setDataConsumed
  rw [apply_ite strip, apply_ite strip]
  rfl

theorem perform_strip (b : CDynBuffer) (alloc : Option Nat) (call : LocalCall) :
    stripResult (b.strip.perform alloc call) = stripResult (b.perform alloc call) := by
  cases call with
  | resize len => exact b.resize_strip len alloc
  | append data => exact b.appendData_strip data alloc
  | reserve max_ =>
      have hResize := (b.raiseMax max_).resize_strip ((max_ - b.m_lLen) * 2 / 3) alloc
      have hFst (r : Option (CDynBuffer × Bool)) :
          stripResult ((r.map Prod.fst).map (·, true)) =
            (stripResult r).map fun p => (p.1, true) := by
        cases r <;> rfl
      change stripResult ((((b.raiseMax max_).strip.resize ((max_ - b.m_lLen) * 2 / 3) alloc).map
        Prod.fst).map (·, true)) = _
      rw [hFst, hResize, ← hFst]
      rfl
  | consume lLen =>
      simp only [perform, stripResult, Option.map_some, setDataConsumed_strip]
  | consumeLong =>
      apply stripResult_congr
      unfold consumeLong
      change (if 4 ≤ b.m_lLen then some (b.strip.setDataConsumed 4) else none).map strip = _
      split_ifs
      · simp only [Option.map_some, setDataConsumed_strip]
      · rfl
  | clear => rfl
  | dataRead data => exact stripResult_congr (b.write_strip data)
  | clearStats => rfl

theorem getBuffer_strip (b : CDynBuffer) : b.strip.getBuffer = b.getBuffer := rfl

theorem m_lSize_strip (b : CDynBuffer) : b.strip.m_lSize = b.m_lSize := rfl

theorem m_lLen_strip (b : CDynBuffer) : b.strip.m_lLen = b.m_lLen := rfl

/-- Buffers that differ in their statistics only cannot be told apart. -/
theorem answers_eq_of_strip {b b' : CDynBuffer} (h : b.strip = b'.strip)
    (calls : List (LocalCall × Option Nat)) : b.answers calls = b'.answers calls := by
  induction calls generalizing b b' with
  | nil => rfl
  | cons head rest ih =>
      obtain ⟨call, alloc⟩ := head
      have hResult : stripResult (b.perform alloc call) = stripResult (b'.perform alloc call) := by
        rw [← b.perform_strip, h, b'.perform_strip]
      unfold answers
      rcases hLeft : b.perform alloc call with _ | ⟨c, ok⟩ <;>
        rcases hRight : b'.perform alloc call with _ | ⟨c', ok'⟩ <;>
        simp only [hLeft, hRight, stripResult, Option.map_none, Option.map_some,
          Option.some.injEq, Prod.mk.injEq, reduceCtorEq] at hResult ⊢
      obtain ⟨hStrip, rfl⟩ := hResult
      have hBytes : c.getBuffer = c'.getBuffer := by
        rw [← c.getBuffer_strip, hStrip, c'.getBuffer_strip]
      have hSize : c.m_lSize = c'.m_lSize := by
        rw [← c.m_lSize_strip, hStrip, c'.m_lSize_strip]
      have hLen : c.m_lLen = c'.m_lLen := by
        rw [← c.m_lLen_strip, hStrip, c'.m_lLen_strip]
      rw [hBytes, hSize, hLen, ih hStrip]

end Statistics

theorem Kept.losesNothing {before after : CDynBuffer} (h : before.Kept after)
    (hOwns : before.m_pBuffer.isSome = true) : LosesNothing before after := by
  have hStrip := strip_eq_of_kept h
  refine ⟨?_, ?_, h.size_eq, h.len_eq, answers_eq_of_strip hStrip⟩
  · rw [h.buffer_eq]
    exact hOwns
  · rw [← after.getBuffer_strip, hStrip, before.getBuffer_strip]

section Ownership

variable {b b' pair pair' : CDynBuffer}

theorem grow_owns {newSize : UInt32} {id : Nat} (h : b.grow newSize id = some b') :
    b'.m_pBuffer.isSome = true := by
  simp only [grow, Option.bind_eq_some_iff, Option.map_eq_some_iff] at h
  obtain ⟨_, _, _, _, rfl⟩ := h
  rfl

theorem compact_owns (h : b.compact = some b') : b'.m_pBuffer.isSome = true := by
  simp only [compact, Option.bind_eq_some_iff, Option.map_eq_some_iff] at h
  obtain ⟨_, _, _, _, rfl⟩ := h
  rfl

theorem write_owns {data : Chars} (h : b.write data = some b') :
    b'.m_pBuffer.isSome = true := by
  unfold write at h
  split_ifs at h
  simp only [Option.map_eq_some_iff] at h
  obtain ⟨_, _, rfl⟩ := h
  rfl

theorem setDataConsumed_m_pBuffer (b : CDynBuffer) (lLen : UInt32) :
    (b.setDataConsumed lLen).m_pBuffer = b.m_pBuffer := by
  unfold setDataConsumed
  simp only
  split_ifs <;> rfl

theorem resize_owns {len : UInt32} {alloc : Option Nat} {ok : Bool}
    (hOwns : b.m_pBuffer.isSome = true) (hSpare : ¬b.Stranded len)
    (h : b.resize len alloc = some (b', ok)) : b'.m_pBuffer.isSome = true := by
  rw [resize_eq, if_neg hSpare] at h
  split_ifs at h with hMax hSize
  · obtain rfl : _ = b' := congrArg Prod.fst (Option.some.inj h)
    exact hOwns
  · cases alloc with
    | none =>
        obtain rfl : _ = b' := congrArg Prod.fst (Option.some.inj h)
        exact hOwns
    | some id =>
        obtain ⟨c, hGrow, hEq⟩ := Option.map_eq_some_iff.mp h
        obtain rfl : c = b' := congrArg Prod.fst hEq
        exact grow_owns hGrow
  · obtain ⟨room, _, hRest⟩ := Option.bind_eq_some_iff.mp h
    cases room with
    | true =>
        obtain rfl : b = b' := congrArg Prod.fst (Option.some.inj hRest)
        exact hOwns
    | false =>
        obtain ⟨c, hCompact, hEq⟩ := Option.map_eq_some_iff.mp hRest
        obtain rfl : c = b' := congrArg Prod.fst hEq
        exact compact_owns hCompact

theorem resize_strands {len : UInt32} {alloc : Option Nat} {ok : Bool}
    (hStrand : b.Stranded len) (h : b.resize len alloc = some (b', ok)) :
    b'.m_pBuffer = none ∧ ok = false := by
  rw [resize_eq, if_neg hStrand.1, if_pos hStrand] at h
  cases h
  exact ⟨rfl, rfl⟩

theorem perform_owns {call : LocalCall} {alloc : Option Nat} {ok : Bool}
    (hOwns : b.m_pBuffer.isSome = true) (hSpare : ¬b.StrandedBy call)
    (h : b.perform alloc call = some (b', ok)) : b'.m_pBuffer.isSome = true := by
  cases call with
  | resize len => exact resize_owns hOwns hSpare h
  | append data =>
      obtain ⟨⟨c, accepted⟩, hResize, hRest⟩ := Option.bind_eq_some_iff.mp h
      cases accepted with
      | true =>
          obtain ⟨d, hWrite, hEq⟩ := Option.map_eq_some_iff.mp hRest
          obtain rfl : d.checkPeak = b' := congrArg Prod.fst hEq
          have hOwnsD := write_owns hWrite
          exact hOwnsD
      | false =>
          obtain rfl : c = b' := congrArg Prod.fst (Option.some.inj hRest)
          exact resize_owns hOwns hSpare hResize
  | reserve max_ =>
      simp only [perform, reserve, Option.map_map, Option.map_eq_some_iff] at h
      obtain ⟨⟨c, _⟩, hResize, hEq⟩ := h
      obtain rfl : c = b' := congrArg Prod.fst hEq
      exact resize_owns (b := b.raiseMax max_) hOwns hSpare hResize
  | consume lLen =>
      obtain rfl : _ = b' := congrArg Prod.fst (Option.some.inj h)
      rw [setDataConsumed_m_pBuffer]
      exact hOwns
  | consumeLong =>
      simp only [perform, consumeLong] at h
      split_ifs at h
      · obtain rfl : _ = b' := congrArg Prod.fst (Option.some.inj h)
        rw [setDataConsumed_m_pBuffer]
        exact hOwns
      · cases h
  | clear =>
      obtain rfl : _ = b' := congrArg Prod.fst (Option.some.inj h)
      exact hOwns
  | dataRead data =>
      obtain ⟨c, hWrite, hEq⟩ := Option.map_eq_some_iff.mp h
      obtain rfl : c = b' := congrArg Prod.fst hEq
      exact write_owns hWrite
  | clearStats =>
      obtain rfl : _ = b' := congrArg Prod.fst (Option.some.inj h)
      exact hOwns

theorem perform_strands {call : LocalCall} {alloc : Option Nat} {ok : Bool}
    (hStrand : b.StrandedBy call) (h : b.perform alloc call = some (b', ok)) :
    b'.m_pBuffer = none := by
  cases call with
  | resize len => exact (resize_strands hStrand h).1
  | append data =>
      obtain ⟨⟨c, accepted⟩, hResize, hRest⟩ := Option.bind_eq_some_iff.mp h
      obtain ⟨hLost, rfl⟩ := resize_strands hStrand hResize
      obtain rfl : c = b' := congrArg Prod.fst (Option.some.inj hRest)
      exact hLost
  | reserve max_ =>
      simp only [perform, reserve, Option.map_map, Option.map_eq_some_iff] at h
      obtain ⟨⟨c, _⟩, hResize, hEq⟩ := h
      obtain rfl : c = b' := congrArg Prod.fst hEq
      exact (resize_strands hStrand hResize).1
  | consume lLen => exact hStrand.elim
  | consumeLong => exact hStrand.elim
  | clear => exact hStrand.elim
  | dataRead data => exact hStrand.elim
  | clearStats => exact hStrand.elim

/-- Only `resize` and `AppendData` return false. -/
theorem perform_refused {call : LocalCall} {alloc : Option Nat} (hSpare : ¬b.StrandedBy call)
    (h : b.perform alloc call = some (b', false)) : b.Kept b' := by
  have hResize : ∃ len, ¬b.Stranded len ∧ b.resize len alloc = some (b', false) := by
    cases call with
    | resize len => exact ⟨len, hSpare, h⟩
    | append data => exact ⟨data.len, hSpare, (appendData_refused_iff b b' data alloc).mp h⟩
    | reserve max_ => simp [perform, Option.map_eq_some_iff] at h
    | consume lLen => simp [perform] at h
    | consumeLong => simp [perform, Option.map_eq_some_iff] at h
    | clear => simp [perform] at h
    | dataRead data => simp [perform, Option.map_eq_some_iff] at h
    | clearStats => simp [perform] at h
  obtain ⟨len, hNot, hRun⟩ := hResize
  rcases resize_refused hRun with ⟨_, hKept⟩ | ⟨hStrand, _⟩
  · exact hKept
  · exact absurd hStrand hNot

theorem swapBuffer_owns {alloc : Option Nat} {ok : Bool} (hOwns : b.m_pBuffer.isSome = true)
    (hPair : pair.m_pBuffer.isSome = true)
    (h : b.swapBuffer pair alloc = some ((b', pair'), ok)) :
    b'.m_pBuffer.isSome = true ∧ pair'.m_pBuffer.isSome = true := by
  have hEnlarged : (b.enlargeForSwap pair alloc).m_pBuffer.isSome = true := by
    unfold enlargeForSwap
    by_cases hGrow : b.m_lSize < pair.m_lSize
    · rw [if_pos hGrow]
      cases alloc with
      | none => exact hOwns
      | some id => rfl
    · rw [if_neg hGrow]
      exact hOwns
  unfold swapBuffer at h
  simp only at h
  split_ifs at h
  · cases h
    exact ⟨hPair, hEnlarged⟩
  · cases h
    exact ⟨hEnlarged, hPair⟩

theorem copyFrom_owns {copy_ : CDynBuffer} {alloc : Option Nat}
    (h : b.copyFrom copy_ alloc = some b') : b'.m_pBuffer.isSome = true := by
  simp only [copyFrom, Option.bind_eq_some_iff, Option.map_eq_some_iff] at h
  obtain ⟨_, _, _, _, _, _, rfl⟩ := h
  rfl

end Ownership

variable {ι : Type*} [DecidableEq ι]

/-- Calls that strand no buffer keep the property. -/
theorem step_refusalsKeep (w : World ι) (call : WorldCall ι) (w' : World ι)
    (hKeep : RefusalsKeep w) (hSpare : SparesStorage w call) (hStep : step w call = some w') :
    RefusalsKeep w' := by
  obtain ⟨hOwn, _⟩ := hKeep
  cases call with
  | construct i initSize maxSize =>
      simp only [step, Option.some.injEq] at hStep
      subst w'
      exact ⟨hOwn.set i rfl, by simp⟩
  | on i call ok =>
      simp only [step, Option.bind_eq_some_iff, Option.map_eq_some_iff] at hStep
      obtain ⟨b, hGet, ⟨b', res⟩, hRun, rfl⟩ := hStep
      have hOld := hOwn i b hGet
      have hNot := hSpare b hGet
      refine ⟨hOwn.set i (perform_owns hOld hNot hRun), ?_⟩
      intro j before hRefused
      cases res with
      | true => cases hRefused
      | false =>
          simp only [Bool.false_eq_true, ↓reduceIte, Option.some.injEq, Prod.mk.injEq] at hRefused
          obtain ⟨rfl, rfl⟩ := hRefused
          have hKept := perform_refused hNot hRun
          exact ⟨b', Objects.get_set_self _ _ _, hKept.losesNothing hOld⟩
  | swap i j ok =>
      simp only [step] at hStep
      split_ifs at hStep
      simp only [Option.bind_eq_some_iff, Option.map_eq_some_iff] at hStep
      obtain ⟨b, hGet, pair, hPair, ⟨⟨b', pair'⟩, res⟩, hRun, rfl⟩ := hStep
      obtain ⟨hNew, hNewPair⟩ := swapBuffer_owns (hOwn i b hGet) (hOwn j pair hPair) hRun
      exact ⟨(hOwn.set i hNew).set j hNewPair, by simp⟩
  | copyFrom i j ok =>
      simp only [step] at hStep
      split_ifs at hStep
      simp only [Option.bind_eq_some_iff, Option.map_eq_some_iff] at hStep
      obtain ⟨b, _, copy_, _, b', hRun, rfl⟩ := hStep
      exact ⟨hOwn.set i (copyFrom_owns hRun), by simp⟩

/-- A call that strands its buffer takes the storage away. -/
theorem step_strands (w : World ι) (call : WorldCall ι) (w' : World ι) (_ : RefusalsKeep w)
    (hBad : ¬SparesStorage w call) (hStep : step w call = some w') : ¬RefusalsKeep w' := by
  cases call with
  | construct i initSize maxSize => exact absurd trivial hBad
  | swap i j ok => exact absurd trivial hBad
  | copyFrom i j ok => exact absurd trivial hBad
  | on i call ok =>
      simp only [step, Option.bind_eq_some_iff, Option.map_eq_some_iff] at hStep
      obtain ⟨b, hGet, ⟨b', res⟩, hRun, rfl⟩ := hStep
      intro hKeep
      apply hBad
      intro c hc hStrand
      obtain rfl : b = c := Option.some.inj (hGet.symm.trans hc)
      have hOwns : b'.m_pBuffer.isSome = true := hKeep.1 i b' (Objects.get_set_self _ _ _)
      rw [perform_strands hStrand hRun] at hOwns
      cases hOwns

/-- Along every run, all refused calls lose nothing and all buffers keep
owning their storage if and only if no call asks a buffer for a length that
fits below the maximum but not into a block that is nearly as large. -/
theorem refusalsKeep_iff_sparesStorage (calls : List (WorldCall ι))
    (hRun : (run step World.initial calls).isSome) :
    Always step RefusalsKeep World.initial calls ↔
      Guarded step SparesStorage World.initial calls := by
  obtain ⟨finish, hFinish⟩ := Option.isSome_iff_exists.mp hRun
  have hStart : RefusalsKeep (World.initial : World ι) := by
    refine ⟨?_, by simp [World.initial]⟩
    intro i b hb
    simp [World.initial, Objects.empty] at hb
  exact always_iff_guarded RefusalsKeep step_refusalsKeep (fun _ h => h) step_strands hStart
    hFinish

/-- One byte more than the block of ten holds, with a maximum of sixteen. -/
def elevenBytes : Chars := ⟨List.replicate 11 65, by decide⟩

theorem refusalsKeep_iff_sparesStorage_full :
    Always step RefusalsKeep World.initial
        [.construct () 10 200, .on () (.append elevenBytes) false,
          .on () (.append elevenBytes) true] ↔
      Guarded step SparesStorage World.initial
        [.construct () 10 200, .on () (.append elevenBytes) false,
          .on () (.append elevenBytes) true] :=
  refusalsKeep_iff_sparesStorage
    [.construct () 10 200, .on () (.append elevenBytes) false,
      .on () (.append elevenBytes) true] (by decide)

/-- The refused append has released the storage. -/
theorem refused_append_strands :
    (run step World.initial
        [.construct () 10 16, .on () (.append elevenBytes) true]).isSome ∧
      ¬Always step RefusalsKeep World.initial
        [.construct () 10 16, .on () (.append elevenBytes) true] := by
  have hLost : (run step World.initial
      [.construct () 10 16, .on () (.append elevenBytes) true]).any (fun w =>
        (w.buffers.get ()).any fun b => b.m_pBuffer.isNone) = true := by decide
  cases hRun : run step World.initial
      [.construct () 10 16, .on () (.append elevenBytes) true] with
  | none =>
      rw [hRun] at hLost
      cases hLost
  | some w =>
      refine ⟨rfl, fun hAlways => ?_⟩
      have hOwns := (hAlways.finish hRun).1
      rw [hRun, Option.any_some] at hLost
      cases hGet : w.buffers.get () with
      | none => simp [hGet] at hLost
      | some b =>
          have hOwnsB := hOwns () b hGet
          rw [hGet, Option.any_some] at hLost
          cases hBuffer : b.m_pBuffer <;> simp_all

end CppPerf.Buffer.CDynBuffer
