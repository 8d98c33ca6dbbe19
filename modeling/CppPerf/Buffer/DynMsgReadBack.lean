import CppPerf.Buffer.DynMsgQueue
import CppPerf.Semantics.Run

/-! Reading the messages back. The walk stops four bytes before the end of the
buffer, where a last message without payload still stands; the removal does
not, so the two disagree about that message. -/
namespace CppPerf.Buffer.CDynMsg

open CDynBuffer Heap Transition

/-- Read one payload after the other until there is no next message. -/
def walkLoop (m : CDynMsg) : (fuel : Nat) → Option (Option Ptr × UInt32) →
    Option (List (List UInt8))
  | _, none => some []
  | 0, some _ => none
  | fuel + 1, some (payload, len) =>
      (load m.m_pBuffer payload len.toNat).bind fun bytes =>
        (m.getMsgNext (shift payload len.toNat)).bind fun next =>
          (m.walkLoop fuel next).map (bytes :: ·)

/-- The payloads from `GetMsg(&len)` to the `NULL` of `GetMsg(pNext, &len)`. -/
def walk (m : CDynMsg) : Option (List (List UInt8)) :=
  m.getMsg.bind (m.walkLoop m.m_lLen.toNat)

/-- The messages a walk meets: a last one without payload is left out. -/
def visible : List (List UInt8) → List (List UInt8)
  | [] => []
  | body :: rest => if body = [] ∧ rest = [] then [] else body :: visible rest

theorem visible_eq_self_iff (bodies : List (List UInt8)) :
    visible bodies = bodies ↔ bodies.getLast? ≠ some [] := by
  induction bodies with
  | nil => simp [visible]
  | cons body rest ih =>
      cases rest with
      | nil => by_cases hBody : body = [] <;> simp [visible, hBody]
      | cons next rest =>
          rw [visible, if_neg (fun h => List.cons_ne_nil _ _ h.2), List.cons.injEq, ih,
            List.getLast?_cons_cons]
          simp

theorem length_le_length_frames (bodies : List (List UInt8)) :
    bodies.length ≤ (frames bodies).length := by
  induction bodies with
  | nil => exact Nat.le_refl 0
  | cons body rest ih =>
      rw [frames_cons, List.length_append, length_frame, List.length_cons]
      omega

section Walk

variable {m : CDynMsg} {block : Block} {off : Nat} {front rest : List (List UInt8)}
  {body : List UInt8}

/-- Bytes of the content at any position. -/
theorem Holds.load_at {content : List UInt8} (h : m.Holds block off content) {pos n : Nat}
    (hn : pos + n ≤ m.m_lLen.toNat) :
    load m.m_pBuffer (some ⟨block.id, off + pos⟩) n = some ((content.drop pos).take n) := by
  have hBound := h.bound
  rw [h.buffer_eq, load_of_le]
  · rw [slice_take block.bytes (off + pos) (show n ≤ m.m_lLen.toNat - pos by omega), slice_drop,
      h.content_eq]
  · rw [h.size_eq]
    omega

theorem drop_frames (front rest : List (List UInt8)) :
    (frames (front ++ rest)).drop (frames front).length = frames rest := by
  rw [frames_append, List.drop_left']
  rfl

theorem length_frames_append (h : m.Holds block off (frames (front ++ rest))) :
    m.m_lLen.toNat = (frames front).length + (frames rest).length := by
  rw [← h.length_content, frames_append, List.length_append]

/-- The length word of the message behind the front ones. -/
theorem loadLong_at (h : m.Holds block off (frames (front ++ body :: rest)))
    (hLen : m.m_lLen.toNat ≤ maxSize) :
    loadLong m.m_pBuffer (some ⟨block.id, off + (frames front).length⟩) =
      some (UInt32.ofNat body.length) := by
  have hTotal := length_frames_append h
  rw [frames_cons, List.length_append, length_frame] at hTotal
  rw [maxSize] at hLen
  rw [loadLong, Holds.load_at h (by omega), drop_frames, frames_cons, frame, List.append_assoc,
    List.take_left' (length_encodeLe 4 body.length), Option.map_some, decodeLe_encodeLe_of_lt]
  omega

/-- The payload of the message behind the front ones. -/
theorem load_payload (h : m.Holds block off (frames (front ++ body :: rest))) :
    load m.m_pBuffer (some ⟨block.id, off + (frames front).length + 4⟩) body.length =
      some body := by
  have hTotal := length_frames_append h
  rw [frames_cons, List.length_append, length_frame] at hTotal
  have hDrop : (frames (front ++ body :: rest)).drop ((frames front).length + 4) =
      body ++ frames rest := by
    rw [← List.drop_drop, drop_frames, frames_cons, frame, List.append_assoc,
      List.drop_left' (length_encodeLe 4 body.length)]
  rw [Nat.add_assoc, Holds.load_at h (by omega), hDrop, List.take_left' rfl]

/-- `GetMsg(pNext, &len)` behind the front messages. -/
theorem getMsgNext_spec (h : m.Holds block off (frames (front ++ rest)))
    (hLen : m.m_lLen.toNat ≤ maxSize) :
    m.getMsgNext (some ⟨block.id, off + (frames front).length⟩) =
      some (match visible rest with
        | [] => none
        | body :: _ => some (some ⟨block.id, off + (frames front).length + 4⟩,
            UInt32.ofNat body.length)) := by
  have hTotal := length_frames_append h
  have hBound := h.bound
  rw [maxSize] at hLen
  have hNext : distance m.m_pBuffer (some ⟨block.id, off + (frames front).length⟩) =
      some (off + (frames front).length) := by
    rw [h.buffer_eq, distance_of_le]
    rw [h.size_eq]
    omega
  have hBegin : distance m.m_pBuffer m.m_pCur = some off := by
    rw [h.buffer_eq, h.cur_eq, distance_of_le]
    rw [h.size_eq]
    omega
  unfold getMsgNext
  rw [hNext, hBegin, Option.bind_some, Option.bind_some]
  cases rest with
  | nil =>
      rw [frames_nil, List.length_nil] at hTotal
      rw [if_pos (by omega)]
      rfl
  | cons body rest =>
      rw [frames_cons, List.length_append, length_frame] at hTotal
      by_cases hLast : body = [] ∧ rest = []
      · obtain ⟨rfl, rfl⟩ := hLast
        rw [List.length_nil, frames_nil, List.length_nil] at hTotal
        rw [if_pos (by omega), visible, if_pos ⟨rfl, rfl⟩]
      · have hMore : 0 < body.length + (frames rest).length := by
          cases body with
          | cons byte bytes =>
              rw [List.length_cons]
              omega
          | nil =>
              cases rest with
              | nil => exact absurd ⟨rfl, rfl⟩ hLast
              | cons next rest =>
                  rw [frames_cons, List.length_append, length_frame]
                  omega
        rw [if_neg (by omega), loadLong_at h hLen, visible, if_neg hLast]
        rfl

/-- The walk from behind the front messages. -/
theorem walkLoop_spec (h : m.Holds block off (frames (front ++ rest)))
    (hLen : m.m_lLen.toNat ≤ maxSize) {fuel : Nat} (hFuel : rest.length ≤ fuel) :
    (m.getMsgNext (some ⟨block.id, off + (frames front).length⟩)).bind (m.walkLoop fuel) =
      some (visible rest) := by
  induction rest generalizing front fuel with
  | nil =>
      rw [getMsgNext_spec h hLen, Option.bind_some]
      simp only [visible]
      cases fuel <;> rfl
  | cons body rest ih =>
      have hTotal := length_frames_append h
      rw [frames_cons, List.length_append, length_frame] at hTotal
      rw [getMsgNext_spec h hLen, Option.bind_some]
      by_cases hLast : body = [] ∧ rest = []
      · rw [visible, if_pos hLast]
        cases fuel <;> rfl
      · obtain ⟨fuel, rfl⟩ : ∃ n, fuel = n + 1 := ⟨fuel - 1, by simp at hFuel; omega⟩
        rw [visible, if_neg hLast]
        simp only [walkLoop]
        have hBodyLen : (UInt32.ofNat body.length).toNat = body.length := by
          rw [maxSize] at hLen
          exact UInt32.toNat_ofNat_of_lt (show body.length < 2 ^ 32 by omega)
        have hShift : shift (some ⟨block.id, off + (frames front).length + 4⟩) body.length =
            some ⟨block.id, off + (frames (front ++ [body])).length⟩ := by
          rw [frames_append, List.length_append, frames_cons, frames_nil, List.append_nil,
            length_frame]
          simp only [shift, Option.map_some]
          congr 2
          omega
        have hRest : m.Holds block off (frames ((front ++ [body]) ++ rest)) := by
          simpa using h
        have hTail := ih hRest (show rest.length ≤ fuel by simp at hFuel; omega)
        rw [hBodyLen, load_payload h, Option.bind_some, hShift]
        cases hGet : m.getMsgNext (some ⟨block.id, off + (frames (front ++ [body])).length⟩) with
        | none =>
            rw [hGet] at hTail
            cases hTail
        | some next =>
            rw [hGet, Option.bind_some] at hTail
            rw [Option.bind_some, hTail]
            rfl

end Walk

/-- `GetMsg(&len)` is the second form at the start of the content. -/
theorem Intact.getMsg_eq {m : CDynMsg} {bodies : List (List UInt8)} {next : Nat}
    (h : m.Intact bodies next) : m.getMsg = m.getMsgNext m.m_pCur := by
  obtain ⟨block, off, hHolds, _⟩ := h.holds
  have hBound := hHolds.bound
  have hCur : distance m.m_pBuffer m.m_pCur = some off := by
    rw [hHolds.buffer_eq, hHolds.cur_eq, distance_of_le]
    rw [hHolds.size_eq]
    omega
  unfold getMsg getMsgNext
  rw [hCur, Option.bind_some, Option.bind_some]
  by_cases hLen : m.m_lLen ≤ 4
  · rw [if_pos hLen, if_pos]
    simp only [UInt32.le_iff_toNat_le, UInt32.reduceToNat] at hLen
    omega
  · rw [if_neg hLen, if_neg]
    simp only [UInt32.le_iff_toNat_le, UInt32.reduceToNat] at hLen
    omega

/-- A walk meets the visible messages, oldest first. -/
theorem Intact.walk_eq {m : CDynMsg} {bodies : List (List UInt8)} {next : Nat}
    (h : m.Intact bodies next) : m.walk = some (visible bodies) := by
  obtain ⟨block, off, hHolds, _⟩ := h.holds
  have hFuel : bodies.length ≤ m.m_lLen.toNat := by
    rw [← h.length_frames]
    exact length_le_length_frames bodies
  have hAll : m.Holds block off (frames ([] ++ bodies)) := hHolds
  have hWalk := walkLoop_spec hAll h.len_le hFuel
  rw [walk, h.getMsg_eq, hHolds.cur_eq]
  exact hWalk

/-- There is a first message unless the first one is not visible. -/
theorem Intact.getMsg_eq_null_iff {m : CDynMsg} {bodies : List (List UInt8)} {next : Nat}
    (h : m.Intact bodies next) : m.getMsg = some none ↔ visible bodies = [] := by
  obtain ⟨block, off, hHolds, _⟩ := h.holds
  have hAll : m.Holds block off (frames ([] ++ bodies)) := hHolds
  have hGet := getMsgNext_spec hAll h.len_le
  rw [h.getMsg_eq, hHolds.cur_eq]
  rw [frames_nil, List.length_nil, Nat.add_zero] at hGet
  rw [hGet]
  cases visible bodies with
  | nil => simp
  | cons body rest => simp

/-- One queue in use, and the payloads added to it and not yet removed. -/
structure Session where
  m : CDynMsg
  payloads : List (List UInt8)

inductive SessionCall where
  | add (pBuf : Chars) (alloc : Nat → Option Nat)
  | remove

/-- Calls of `AddMsg(buf, len)` that return true, and calls of `RemoveMsg()`. -/
def Session.step : Step Session SessionCall
  | s, .add pBuf alloc =>
      (s.m.addMsg pBuf alloc).bind fun (m, ok) =>
        if ok then some ⟨m, s.payloads ++ [pBuf.bytes]⟩ else none
  | s, .remove =>
      s.m.removeMsg.map fun (m, removed) =>
        ⟨m, if removed then s.payloads.tail else s.payloads⟩

/-- `RemoveMsg()` returns true when there is a message, and leaves the others. -/
def RemovesOldest (s : Session) : Prop :=
  ∃ m', s.m.removeMsg = some (m', !s.payloads.isEmpty) ∧
    m'.toCDynBuffer.getBuffer = some (frames s.payloads.tail) ∧
      m'.msgs = s.payloads.tail.length

/-- A walk yields the payloads, `GetMsg` tells an empty queue from the others,
and a removal takes the oldest payload. -/
def ReadsBack (s : Session) : Prop :=
  s.m.walk = some s.payloads ∧ (s.m.getMsg = some none ↔ s.m.msgs = 0) ∧ RemovesOldest s

/-- The payload added has at least one byte. -/
def AddsBytes (_ : Session) : SessionCall → Prop
  | .add pBuf _ => pBuf.bytes ≠ []
  | .remove => True

/-- The invariant of the runs without an empty payload. -/
def Session.Intact (s : Session) : Prop :=
  (∃ next, s.m.Intact s.payloads next) ∧ ∀ payload ∈ s.payloads, payload ≠ []

theorem Intact.removesOldest {s : Session} {next : Nat} (h : s.m.Intact s.payloads next) :
    RemovesOldest s := by
  obtain ⟨m, payloads⟩ := s
  cases payloads with
  | nil => exact ⟨m, h.removeMsg_nil, h.getBuffer_eq, h.msgs_eq⟩
  | cons body rest =>
      obtain ⟨m', hRun, hNew⟩ := h.removeMsg_cons
      exact ⟨m', hRun, hNew.getBuffer_eq, hNew.msgs_eq⟩

theorem Session.Intact.readsBack {s : Session} (h : s.Intact) : ReadsBack s := by
  obtain ⟨⟨next, hQueue⟩, hBytes⟩ := h
  have hVisible : visible s.payloads = s.payloads := by
    rw [visible_eq_self_iff]
    intro hLast
    exact hBytes [] (List.mem_of_getLast? hLast) rfl
  refine ⟨?_, ?_, hQueue.removesOldest⟩
  · rw [hQueue.walk_eq, hVisible]
  · rw [hQueue.getMsg_eq_null_iff, hVisible, hQueue.msgs_eq]
    simp

/-- An added payload is the last one of the queue. -/
theorem Session.step_add {s s' : Session} {next : Nat} (h : s.m.Intact s.payloads next)
    {pBuf : Chars} {alloc : Nat → Option Nat} (hStep : Session.step s (.add pBuf alloc) = some s') :
    s'.payloads = s.payloads ++ [pBuf.bytes] ∧ ∃ later, s'.m.Intact s'.payloads later := by
  simp only [Session.step, Option.bind_eq_some_iff] at hStep
  obtain ⟨⟨m', ok⟩, hAdd, hOk⟩ := hStep
  cases ok with
  | false => simp at hOk
  | true =>
      simp only [↓reduceIte, Option.some.injEq] at hOk
      subst s'
      have hRun : (NewMsg.plain pBuf).add s.m alloc = some (m', true) := hAdd
      -- An identity above all those the allocations may return.
      obtain ⟨bound, hBound⟩ : ∃ bound, ∀ k < 3, ∀ id, alloc k = some id → id < bound := by
        refine ⟨(alloc 0).getD 0 + (alloc 1).getD 0 + (alloc 2).getD 0 + 1, fun k hk id hId => ?_⟩
        obtain rfl | rfl | rfl : k = 0 ∨ k = 1 ∨ k = 2 := by omega
        all_goals
          rw [hId, Option.getD_some]
          omega
      have hLater := h.mono (Nat.le_add_right next bound)
      refine ⟨rfl, next + bound + 3, ?_⟩
      by_cases hSpare : s.m.toCDynBuffer.StagesSpare ((NewMsg.plain pBuf).chunks alloc)
      · have hFresh : ∀ k < 3, ∀ id, alloc k = some id → id < next + bound + 3 := by
          intro k hk id hId
          have := hBound k hk id hId
          omega
        rcases hLater.add_spec hFresh hSpare with ⟨m₁, hRun₁, hNew⟩ | ⟨m₁, hRun₁, _⟩
        · obtain rfl : m₁ = m' := by simpa using hRun₁.symm.trans hRun
          exact hNew
        · simp [hRun₁] at hRun
      · rcases h.add_breaks hSpare with hNone | ⟨m₁, hRun₁, _⟩
        · simp [hNone] at hRun
        · simp [hRun₁] at hRun

theorem Session.step_remove {s s' : Session} {next : Nat} (h : s.m.Intact s.payloads next)
    (hStep : Session.step s .remove = some s') :
    s'.payloads = s.payloads.tail ∧ s'.m.Intact s'.payloads next := by
  obtain ⟨m, payloads⟩ := s
  cases payloads with
  | nil =>
      simp only [Session.step, h.removeMsg_nil, Option.map_some, Option.some.injEq] at hStep
      subst s'
      exact ⟨rfl, h⟩
  | cons body rest =>
      obtain ⟨m', hRun, hNew⟩ := h.removeMsg_cons
      simp only [Session.step, hRun, Option.map_some, Option.some.injEq] at hStep
      subst s'
      exact ⟨rfl, hNew⟩

/-- Calls that add a byte at least keep the invariant. -/
theorem Session.step_intact (s : Session) (call : SessionCall) (s' : Session) (h : s.Intact)
    (hBytes : AddsBytes s call) (hStep : Session.step s call = some s') : s'.Intact := by
  obtain ⟨⟨next, hQueue⟩, hAll⟩ := h
  cases call with
  | add pBuf alloc =>
      obtain ⟨hPayloads, hNew⟩ := Session.step_add hQueue hStep
      refine ⟨hNew, fun payload hMem => ?_⟩
      rw [hPayloads, List.mem_append, List.mem_singleton] at hMem
      rcases hMem with hOld | rfl
      · exact hAll payload hOld
      · exact hBytes
  | remove =>
      obtain ⟨hPayloads, hNew⟩ := Session.step_remove hQueue hStep
      refine ⟨⟨next, hNew⟩, fun payload hMem => ?_⟩
      rw [hPayloads] at hMem
      exact hAll payload (List.mem_of_mem_tail hMem)

/-- A walk does not meet an empty payload that was just added. -/
theorem Session.step_breaks (s : Session) (call : SessionCall) (s' : Session) (h : s.Intact)
    (hEmpty : ¬AddsBytes s call) (hStep : Session.step s call = some s') : ¬ReadsBack s' := by
  obtain ⟨⟨next, hQueue⟩, _⟩ := h
  cases call with
  | add pBuf alloc =>
      obtain ⟨hPayloads, later, hNew⟩ := Session.step_add hQueue hStep
      have hNil : pBuf.bytes = [] := Decidable.not_not.mp hEmpty
      intro hReads
      have hVisible : visible s'.payloads = s'.payloads :=
        Option.some.inj (hNew.walk_eq.symm.trans hReads.1)
      rw [visible_eq_self_iff, hPayloads, hNil] at hVisible
      exact hVisible List.getLast?_concat
  | remove => exact absurd trivial hEmpty

/-- Along every run from an empty queue, reading back undoes adding if and only
if no call adds an empty payload. -/
theorem readsBack_iff_addsBytes {m : CDynMsg} {next : Nat} (hEmpty : m.Intact [] next)
    (calls : List SessionCall) (hRun : (run Session.step ⟨m, []⟩ calls).isSome) :
    Always Session.step ReadsBack ⟨m, []⟩ calls ↔
      Guarded Session.step AddsBytes ⟨m, []⟩ calls := by
  obtain ⟨finish, hFinish⟩ := Option.isSome_iff_exists.mp hRun
  have hStart : Session.Intact ⟨m, []⟩ := ⟨⟨next, hEmpty⟩, fun payload hMem => by simp at hMem⟩
  exact always_iff_guarded Session.Intact Session.step_intact (fun _ h => h.readsBack)
    Session.step_breaks hStart hFinish

theorem readsBack_iff_addsBytes_hello :
    Always Session.step ReadsBack ⟨construct 0, []⟩
        [.add ⟨[104, 105], by decide⟩ fun _ => none, .add ⟨[33], by decide⟩ fun _ => none,
          .remove] ↔
      Guarded Session.step AddsBytes ⟨construct 0, []⟩
        [.add ⟨[104, 105], by decide⟩ fun _ => none, .add ⟨[33], by decide⟩ fun _ => none,
          .remove] :=
  readsBack_iff_addsBytes (construct_intact 0) _ (by decide +kernel)

/-- After one empty message `msgs` is one and `GetMsg` returns `NULL`. -/
theorem empty_message_not_read_back :
    (run Session.step ⟨construct 0, []⟩ [.add ⟨[], by decide⟩ fun _ => none]).isSome ∧
      ¬Always Session.step ReadsBack ⟨construct 0, []⟩ [.add ⟨[], by decide⟩ fun _ => none] := by
  have hRun : (run Session.step ⟨construct 0, []⟩
      [.add ⟨[], by decide⟩ fun _ => none]).isSome = true := by
    decide +kernel
  have hNull : (run Session.step ⟨construct 0, []⟩ [.add ⟨[], by decide⟩ fun _ => none]).all
      (fun s => s.m.getMsg == some none && s.m.msgs == 1) = true := by
    decide +kernel
  refine ⟨hRun, fun hAlways => ?_⟩
  obtain ⟨s, hFinish⟩ := Option.isSome_iff_exists.mp hRun
  have hReads := (hAlways.finish hFinish).2.1
  rw [hFinish, Option.all_some, Bool.and_eq_true, beq_iff_eq, beq_iff_eq] at hNull
  rw [hNull.1, hNull.2] at hReads
  exact absurd (hReads.mp rfl) (by decide)

end CppPerf.Buffer.CDynMsg
