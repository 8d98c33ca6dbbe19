import CppPerf.Buffer.DynMsgQueue
import CppPerf.Memory.Objects
import CppPerf.Semantics.Run

/-! Programs with any number of message queues. Next to each queue stands the
list of the bodies that the history of its calls says it should hold. -/
namespace CppPerf.Buffer.CDynMsg

open CDynBuffer Heap Transition

/-- The queues with their expected bodies, and whether a call that adds a
message has run into undefined behaviour. -/
structure World (ι : Type*) where
  queues : Objects ι (CDynMsg × List (List UInt8))
  undefined : Bool

inductive Call (ι : Type*) where
  | construct (i : ι)
  | constructCopy (i j : ι) (ok : Bool)
  | add (i : ι) (msg : NewMsg) (ok : Nat → Bool)
  | remove (i : ι)
  | removeMany (i : ι) (n : Int)
  | removeAll (i : ι)
  | copyFrom (i j : ι) (ok : Bool)
  | swap (i j : ι) (ok : Bool)

variable {ι : Type*} [DecidableEq ι]

/-- Set one queue after a call that could allocate `n` blocks. -/
def World.put (w : World ι) (i : ι) (m : CDynMsg) (bodies : List (List UInt8)) (n : Nat) :
    World ι := { w with queues := (w.queues.set i (m, bodies)).advance n }

/-- One call on existing queues. `ok` tells which allocations succeed. A call
that adds a message is also followed into undefined behaviour. -/
def step : Step (World ι) (Call ι)
  | ⟨_, true⟩, _ => none
  | w, .construct i => some (w.put i (construct w.queues.next) [] 1)
  | w, .constructCopy i j ok =>
      (w.queues.get j).bind fun (copy_, bodies) =>
        (constructCopy copy_ w.queues.next
          (if ok then some (w.queues.next + 1) else none)).map fun m => w.put i m bodies 2
  | w, .add i msg ok =>
      (w.queues.get i).map fun (m, bodies) =>
        match msg.add m (w.queues.allocs ok) with
        | none => { w with undefined := true }
        | some (m', added) => w.put i m' (if added then bodies ++ [msg.body] else bodies) 3
  | w, .remove i =>
      (w.queues.get i).bind fun (m, bodies) =>
        m.removeMsg.map fun (m', removed) =>
          w.put i m' (if removed then bodies.tail else bodies) 0
  | w, .removeMany i n =>
      (w.queues.get i).bind fun (m, bodies) =>
        (m.removeMsgs n).map fun (m', removed, _) => w.put i m' (bodies.drop removed.toNat) 0
  | w, .removeAll i => (w.queues.get i).map fun (m, _) => w.put i m.removeAll [] 0
  | w, .copyFrom i j ok =>
      if i = j then none
      else
        (w.queues.get i).bind fun (m, _) =>
          (w.queues.get j).bind fun (copy_, bodies) =>
            (m.copyFrom copy_ (w.queues.alloc ok)).map fun m' => w.put i m' bodies 1
  | w, .swap i j ok =>
      if i = j then none
      else
        (w.queues.get i).bind fun (m, bodies) =>
          (w.queues.get j).bind fun (pair, pairBodies) =>
            (m.swapBuffer pair (w.queues.alloc ok)).map fun ((m', pair'), swapped) =>
              if swapped then (w.put i m' pairBodies 1).put j pair' bodies 0
              else (w.put i m' bodies 1).put j pair' pairBodies 0

def World.initial : World ι := ⟨Objects.empty, false⟩

/-- No stage of a call that adds a message wraps a length around or strands
the buffer, and no swap puts a new block in place of the old one. -/
def SparesQueues (w : World ι) : Call ι → Prop
  | .add i msg ok => ∀ m bodies, w.queues.get i = some (m, bodies) →
      m.toCDynBuffer.StagesSpare (msg.chunks (w.queues.allocs ok))
  | .swap i j ok => ∀ m bodies pair pairBodies, w.queues.get i = some (m, bodies) →
      w.queues.get j = some (pair, pairBodies) →
        ¬(m.msgs = 0 ∧ 0 < pair.msgs ∧ m.m_lSize < pair.m_lSize ∧ ok = true)
  | _ => True

/-- The invariant: every queue is intact. -/
def World.Intact (w : World ι) : Prop :=
  w.undefined = false ∧ w.queues.All fun q => q.1.Intact q.2 w.queues.next

omit [DecidableEq ι] in
theorem World.Intact.get {w : World ι} (h : w.Intact) {i : ι} {m : CDynMsg}
    {bodies : List (List UInt8)} (hGet : w.queues.get i = some (m, bodies)) :
    m.Intact bodies w.queues.next := h.2 i (m, bodies) hGet

theorem World.Intact.put {w : World ι} (h : w.Intact) (i : ι) {m : CDynMsg}
    {bodies : List (List UInt8)} {n : Nat} (hNew : m.Intact bodies (w.queues.next + n)) :
    (w.put i m bodies n).Intact := by
  refine ⟨h.1, ?_⟩
  have hOthers : w.queues.All fun q => q.1.Intact q.2 (w.queues.next + n) :=
    h.2.mono fun q hq => hq.mono (Nat.le_add_right _ _)
  exact hOthers.set i hNew

section Swap

variable {m m' pair pair' : CDynMsg} {bodies pairBodies : List (List UInt8)} {next : Nat}

theorem Intact.len_pos (h : m.Intact bodies next) (hMsgs : 0 < m.msgs) : 0 < m.m_lLen := by
  have hLength := h.length_frames
  rw [h.msgs_eq] at hMsgs
  cases bodies with
  | nil => simp at hMsgs
  | cons body rest =>
      rw [frames_cons, List.length_append, length_frame] at hLength
      rw [UInt32.lt_iff_toNat_lt]
      simp only [UInt32.reduceToNat]
      omega

/-- Without a new block the queues exchange everything, or nothing. -/
theorem Intact.swap_spec (h : m.Intact bodies next) (hPair : pair.Intact pairBodies next)
    {alloc : Option Nat} {swapped : Bool}
    (hSpare : ¬(m.msgs = 0 ∧ 0 < pair.msgs ∧ m.m_lSize < pair.m_lSize ∧ alloc.isSome = true))
    (hRun : m.swapBuffer pair alloc = some ((m', pair'), swapped)) :
    m'.Intact (if swapped then pairBodies else bodies) next ∧
      pair'.Intact (if swapped then bodies else pairBodies) next := by
  unfold swapBuffer at hRun
  by_cases hMsgs : m.msgs = 0 ∧ 0 < pair.msgs
  · rw [if_pos hMsgs] at hRun
    obtain ⟨⟨⟨b, pairB⟩, ok⟩, hBase, hEq⟩ := Option.map_eq_some_iff.mp hRun
    have hSame : m.toCDynBuffer.enlargeForSwap pair.toCDynBuffer alloc = m.toCDynBuffer := by
      unfold enlargeForSwap
      by_cases hGrow : m.m_lSize < pair.m_lSize
      · rw [if_pos hGrow]
        cases alloc with
        | none => rfl
        | some id => exact absurd ⟨hMsgs.1, hMsgs.2, hGrow, rfl⟩ hSpare
      · rw [if_neg hGrow]
    unfold CDynBuffer.swapBuffer at hBase
    rw [hSame, if_pos (hPair.len_pos hMsgs.2)] at hBase
    split_ifs at hBase with hAsserts
    cases hBase
    cases hEq
    obtain ⟨block, off, hHolds, hOff, hId⟩ := h.holds
    obtain ⟨block', off', hHolds', hOff', hId'⟩ := hPair.holds
    constructor
    · refine ⟨⟨block', off', ?_, hOff', hId'⟩, hPair.msgs_eq, h.max_eq, hPair.size_le,
        hPair.size_ge⟩
      exact ⟨hHolds'.1, hHolds'.2, hHolds'.3, hHolds'.4, hHolds'.5⟩
    · refine ⟨⟨block, off, ?_, hOff, hId⟩, h.msgs_eq, hPair.max_eq, h.size_le, h.size_ge⟩
      exact ⟨hHolds.1, hHolds.2, hHolds.3, hHolds.4, hHolds.5⟩
  · rw [if_neg hMsgs] at hRun
    cases hRun
    exact ⟨h, hPair⟩

/-- With a new block the pair ends up with a pointer into the old one. -/
theorem Intact.swap_breaks (h : m.Intact bodies next) (hPair : pair.Intact pairBodies next)
    {swapped : Bool} (hMsgs : m.msgs = 0 ∧ 0 < pair.msgs) (hGrow : m.m_lSize < pair.m_lSize)
    (hRun : m.swapBuffer pair (some next) = some ((m', pair'), swapped)) :
    pair'.toCDynBuffer.getBuffer = none := by
  unfold swapBuffer at hRun
  rw [if_pos hMsgs] at hRun
  obtain ⟨⟨⟨b, pairB⟩, ok⟩, hBase, hEq⟩ := Option.map_eq_some_iff.mp hRun
  unfold CDynBuffer.swapBuffer at hBase
  rw [if_pos (hPair.len_pos hMsgs.2)] at hBase
  split_ifs at hBase with hAsserts
  cases hBase
  cases hEq
  obtain ⟨block, off, hHolds, _, hId⟩ := h.holds
  have hOther : block.id ≠ next := by omega
  simp only [enlargeForSwap, if_pos hGrow]
  simp only [getBuffer, load, hHolds.cur_eq, Block.id_zeroed, hOther, false_and, ↓reduceIte]

end Swap

/-- Calls that meet the guard keep every queue intact. -/
theorem step_intact (w : World ι) (call : Call ι) (w' : World ι) (h : w.Intact)
    (hSpare : SparesQueues w call) (hStep : step w call = some w') : w'.Intact := by
  obtain ⟨queues, undefined⟩ := w
  obtain rfl : undefined = false := h.1
  cases call with
  | construct i =>
      simp only [step, Option.some.injEq] at hStep
      subst w'
      exact h.put i (construct_intact queues.next)
  | constructCopy i j ok =>
      simp only [step, Option.bind_eq_some_iff, Option.map_eq_some_iff] at hStep
      obtain ⟨⟨copy_, bodies⟩, hGet, m, hRun, rfl⟩ := hStep
      have hFresh : ∀ id, (if ok then some (queues.next + 1) else none) = some id →
          id < queues.next + 2 := by
        intro id hId
        split_ifs at hId
        obtain rfl := Option.some.inj hId
        omega
      exact h.put i ((h.get hGet).constructCopy_spec hFresh hRun)
  | add i msg ok =>
      simp only [step, Option.map_eq_some_iff] at hStep
      obtain ⟨⟨m, bodies⟩, hGet, rfl⟩ := hStep
      have hFresh : ∀ k < 3, ∀ id, queues.allocs ok k = some id → id < queues.next + 3 :=
        fun k hk id hId => Objects.allocs_lt hk hId
      rcases (h.get hGet).add_spec hFresh (hSpare m bodies hGet) with
        ⟨m', hRun, hNew⟩ | ⟨m', hRun, hNew⟩
      · simp only [hRun, ↓reduceIte]
        exact h.put i hNew
      · simp only [hRun, Bool.false_eq_true, ↓reduceIte]
        exact h.put i hNew
  | remove i =>
      simp only [step, Option.bind_eq_some_iff, Option.map_eq_some_iff] at hStep
      obtain ⟨⟨m, bodies⟩, hGet, ⟨m', removed⟩, hRun, rfl⟩ := hStep
      have hOld := h.get hGet
      cases bodies with
      | nil =>
          obtain ⟨rfl, rfl⟩ : m = m' ∧ false = removed := by
            simpa using hOld.removeMsg_nil.symm.trans hRun
          exact h.put i hOld
      | cons body bodies =>
          obtain ⟨m₁, hRun₁, hNew⟩ := hOld.removeMsg_cons
          obtain ⟨rfl, rfl⟩ : m₁ = m' ∧ true = removed := by
            simpa using hRun₁.symm.trans hRun
          exact h.put i hNew
  | removeMany i n =>
      simp only [step, Option.bind_eq_some_iff, Option.map_eq_some_iff] at hStep
      obtain ⟨⟨m, bodies⟩, hGet, ⟨m', removed, bytes⟩, hRun, rfl⟩ := hStep
      obtain ⟨m₁, removed₁, bytes₁, hRun₁, hNew⟩ := (h.get hGet).removeMsgs_spec n
      obtain ⟨rfl, rfl, rfl⟩ : m₁ = m' ∧ removed₁ = removed ∧ bytes₁ = bytes := by
        simpa using hRun₁.symm.trans hRun
      exact h.put i hNew
  | removeAll i =>
      simp only [step, Option.map_eq_some_iff] at hStep
      obtain ⟨⟨m, bodies⟩, hGet, rfl⟩ := hStep
      exact h.put i (h.get hGet).removeAll
  | copyFrom i j ok =>
      simp only [step] at hStep
      split_ifs at hStep
      simp only [Option.bind_eq_some_iff, Option.map_eq_some_iff] at hStep
      obtain ⟨⟨m, old⟩, hGet, ⟨copy_, bodies⟩, hCopy, m', hRun, rfl⟩ := hStep
      exact h.put i ((h.get hGet).copyFrom_spec (h.get hCopy) (fun id => Objects.alloc_lt) hRun)
  | swap i j ok =>
      simp only [step] at hStep
      split_ifs at hStep
      simp only [Option.bind_eq_some_iff, Option.map_eq_some_iff] at hStep
      obtain ⟨⟨m, bodies⟩, hGet, ⟨pair, pairBodies⟩, hPair, ⟨⟨m', pair'⟩, swapped⟩, hRun, rfl⟩ :=
        hStep
      have hNot := hSpare m bodies pair pairBodies hGet hPair
      have hAlloc : (queues.alloc ok).isSome = ok := by
        cases ok <;> rfl
      rw [← hAlloc] at hNot
      obtain ⟨hNew, hNewPair⟩ := (h.get hGet).swap_spec (h.get hPair) hNot hRun
      have hLater := h.put i (hNew.mono (Nat.le_add_right _ 1))
      cases swapped with
      | true => exact hLater.put j (hNewPair.mono (Nat.le_add_right _ 1))
      | false => exact hLater.put j (hNewPair.mono (Nat.le_add_right _ 1))

/-- Every queue presents exactly the messages of its history, and counts them. -/
def FollowsHistory (w : World ι) : Prop :=
  w.undefined = false ∧ w.queues.All fun q =>
    q.1.toCDynBuffer.getBuffer = some (frames q.2) ∧ q.1.msgs = q.2.length

omit [DecidableEq ι] in
theorem World.Intact.followsHistory {w : World ι} (h : w.Intact) : FollowsHistory w :=
  ⟨h.1, h.2.mono fun _ hq => ⟨hq.getBuffer_eq, hq.msgs_eq⟩⟩

/-- A call outside the guard makes some queue unreadable. -/
theorem step_breaks (w : World ι) (call : Call ι) (w' : World ι) (h : w.Intact)
    (hBad : ¬SparesQueues w call) (hStep : step w call = some w') : ¬FollowsHistory w' := by
  obtain ⟨queues, undefined⟩ := w
  obtain rfl : undefined = false := h.1
  cases call with
  | add i msg ok =>
      simp only [SparesQueues, not_forall] at hBad
      obtain ⟨m, bodies, hGet, hNot⟩ := hBad
      simp only [step, hGet, Option.map_some, Option.some.injEq] at hStep
      subst w'
      rcases (h.get hGet).add_breaks hNot with hNone | ⟨m', hRun, hLost⟩
      · simp only [hNone]
        exact fun hFollows => Bool.noConfusion hFollows.1
      · simp only [hRun]
        intro hFollows
        have hRead := (hFollows.2 i (m', bodies) (Objects.get_set_self _ _ _)).1
        simp [getBuffer, load, hLost] at hRead
  | swap i j ok =>
      simp only [SparesQueues, not_forall, not_not] at hBad
      obtain ⟨m, bodies, pair, pairBodies, hGet, hPair, hMsgs, hPairMsgs, hGrow, rfl⟩ := hBad
      simp only [step] at hStep
      split_ifs at hStep with hij
      simp only [hGet, hPair, Option.bind_some, Option.map_eq_some_iff] at hStep
      obtain ⟨⟨⟨m', pair'⟩, swapped⟩, hRun, rfl⟩ := hStep
      have hNone := (h.get hGet).swap_breaks (h.get hPair) ⟨hMsgs, hPairMsgs⟩ hGrow hRun
      intro hFollows
      cases swapped with
      | true =>
          have hRead := (hFollows.2 j (pair', bodies) (Objects.get_set_self _ _ _)).1
          rw [hNone] at hRead
          cases hRead
      | false =>
          have hRead := (hFollows.2 j (pair', pairBodies) (Objects.get_set_self _ _ _)).1
          rw [hNone] at hRead
          cases hRead
  | construct i => exact absurd trivial hBad
  | constructCopy i j ok => exact absurd trivial hBad
  | remove i => exact absurd trivial hBad
  | removeMany i n => exact absurd trivial hBad
  | removeAll i => exact absurd trivial hBad
  | copyFrom i j ok => exact absurd trivial hBad

omit [DecidableEq ι] in
theorem initial_intact : (World.initial : World ι).Intact := by
  refine ⟨rfl, ?_⟩
  intro i q hq
  simp [World.initial, Objects.empty] at hq

/-- Between the invariant and the history, every property holds throughout a
run exactly when all its calls meet the guard. -/
theorem always_iff_sparesQueues {P : World ι → Prop} (hHolds : ∀ w : World ι, w.Intact → P w)
    (hFollows : ∀ w, P w → FollowsHistory w) {calls : List (Call ι)}
    (hRun : (run step World.initial calls).isSome) :
    Always step P World.initial calls ↔ Guarded step SparesQueues World.initial calls := by
  obtain ⟨finish, hFinish⟩ := Option.isSome_iff_exists.mp hRun
  exact always_iff_guarded World.Intact step_intact hHolds
    (fun w call w' h hBad hStep hP => step_breaks w call w' h hBad hStep (hFollows w' hP))
    initial_intact hFinish

/-- Along every run, a call that adds a message adds its one frame or nothing,
and the other calls keep to the history, if and only if every call meets the
guard. -/
theorem followsHistory_iff_sparesQueues (calls : List (Call ι))
    (hRun : (run step World.initial calls).isSome) :
    Always step FollowsHistory World.initial calls ↔
      Guarded step SparesQueues World.initial calls :=
  always_iff_sparesQueues (fun _ h => h.followsHistory) (fun _ h => h) hRun

def hello : Chars := ⟨[104, 101, 108, 108, 111], by decide⟩

theorem followsHistory_iff_sparesQueues_hello :
    Always step FollowsHistory World.initial
        [.construct (), .add () (.plain hello) fun _ => true, .remove ()] ↔
      Guarded step SparesQueues World.initial
        [.construct (), .add () (.plain hello) fun _ => true, .remove ()] :=
  followsHistory_iff_sparesQueues
    [.construct (), .add () (.plain hello) fun _ => true, .remove ()] (by decide +kernel)

/-- A payload of zero bytes. -/
def zeros (n : Nat) (h : n < 2 ^ 32) : Chars := ⟨List.replicate n 0, by rwa [List.length_replicate]⟩

theorem length_zeros (n : Nat) (h : n < 2 ^ 32) : (zeros n h).bytes.length = n :=
  List.length_replicate

theorem len_zeros (n : Nat) (h : n < 2 ^ 32) : (zeros n h).len = UInt32.ofNat n := by
  rw [Chars.len, zeros, List.length_replicate]

/-- The first message makes the block grow to three bytes below the maximum. -/
def large : NewMsg := .plain (zeros 22369614 (by decide))

/-- With the second one the block would be one byte too small. -/
def remainder : NewMsg := .plain (zeros 11184808 (by decide))

theorem step_add {w : World ι} (hDefined : w.undefined = false) {i : ι} {m : CDynMsg}
    {bodies : List (List UInt8)} (hGet : w.queues.get i = some (m, bodies)) (msg : NewMsg)
    (ok : Nat → Bool) :
    step w (.add i msg ok) =
      some (match msg.add m (w.queues.allocs ok) with
        | none => { w with undefined := true }
        | some (m', added) => w.put i m' (if added then bodies ++ [msg.body] else bodies) 3) := by
  obtain ⟨queues, undefined⟩ := w
  obtain rfl : undefined = false := hDefined
  have hQueue : queues.get i = some (m, bodies) := hGet
  simp only [step, hQueue, Option.map_some]

/-- Two messages for a new queue, without a failing allocation. -/
def twoMessages (first second : NewMsg) : List (Call Unit) :=
  [.construct (), .add () first fun _ => true, .add () second fun _ => true]

/-- If the first message is added and a stage of the second one is not spared
then the history is not followed. -/
private theorem twoMessages_breaks {first second : NewMsg} {b : CDynBuffer}
    (hFirst : first.add (construct 0) (fun k => some (1 + k)) =
      some ({ toCDynBuffer := b, msgs := 1 }, true))
    (hSecond : ∀ alloc, ¬b.StagesSpare (second.chunks alloc)) :
    (run step World.initial (twoMessages first second)).isSome ∧
      ¬Always step FollowsHistory World.initial (twoMessages first second) := by
  obtain ⟨w₁, hw₁⟩ : ∃ w₁ : World Unit, w₁ = World.initial.put () (construct 0) [] 1 := ⟨_, rfl⟩
  obtain ⟨w₂, hw₂⟩ : ∃ w₂ : World Unit,
      w₂ = w₁.put () { toCDynBuffer := b, msgs := 1 } [first.body] 3 := ⟨_, rfl⟩
  have hStep₁ : step World.initial (.construct ()) = some w₁ := by
    rw [hw₁]
    rfl
  have hGet₁ : w₁.queues.get () = some (construct 0, []) := by
    rw [hw₁]
    rfl
  have hGet₂ : w₂.queues.get () = some ({ toCDynBuffer := b, msgs := 1 }, [first.body]) := by
    rw [hw₂]
    rfl
  have hAllocs : w₁.queues.allocs (fun _ => true) = fun k => some (1 + k) := by
    rw [hw₁]
    rfl
  have hDefined₁ : w₁.undefined = false := by rw [hw₁]; rfl
  have hDefined₂ : w₂.undefined = false := by rw [hw₂]; exact hDefined₁
  have hStep₂ : step w₁ (.add () first fun _ => true) = some w₂ := by
    rw [step_add hDefined₁ hGet₁, hAllocs, hFirst, hw₂]
    rfl
  obtain ⟨w₃, hStep₃⟩ : ∃ w₃, step w₂ (.add () second fun _ => true) = some w₃ :=
    ⟨_, step_add hDefined₂ hGet₂ second fun _ => true⟩
  have hRun : run step World.initial (twoMessages first second) = some w₃ := by
    rw [twoMessages, run_cons, hStep₁, Option.bind_some, run_cons, hStep₂, Option.bind_some,
      run_cons, hStep₃, Option.bind_some, run_nil]
  have hSome : (run step World.initial (twoMessages first second)).isSome = true := by
    rw [hRun]
    rfl
  refine ⟨hSome, fun hAlways => ?_⟩
  have hGuard := (always_iff_sparesQueues (fun _ h => h.followsHistory) (fun _ h => h) hSome).mp
    hAlways
  exact hSecond _ (((hGuard.2 w₁ hStep₁).2 w₂ hStep₂).1 _ _ hGet₂)

private theorem length_long (value : UInt32) : (Chars.ofLong value).bytes.length = 4 :=
  length_encodeLe 4 value.toNat

private theorem len_long (value : UInt32) : (Chars.ofLong value).len = 4 := by
  rw [Chars.len, length_long]
  rfl

/-- The sizes once the first message is in. -/
theorem sizes_after_large (alloc : Nat → Option Nat) (hAlloc : ∀ k, (alloc k).isSome = true) :
    ∃ b, (construct 0).toCDynBuffer.appendChunks 0 (large.chunks alloc) = some (b, true) ∧
      ((((construct 0).toCDynBuffer.afterAppend 4).afterAppend 22369614)).SameSizes b := by
  obtain ⟨block, off, hHolds, _⟩ := (construct_intact 0).holds
  have hLen : (zeros 22369614 (by decide)).len = 22369614 := len_zeros _ _
  have hAll : (construct 0).toCDynBuffer.AcceptsAll (large.chunks alloc) := by
    simp only [large, NewMsg.chunks, AcceptsAll, len_long, length_long, hLen, length_zeros,
      hAlloc, implies_true, and_true, true_and]
    decide
  obtain ⟨b, hRun, hSizes⟩ := hHolds.appendChunks_accepts (construct_intact 0).max_lt hAll
  refine ⟨b, hRun, ?_⟩
  simpa only [large, NewMsg.chunks, List.foldl_cons, List.foldl_nil, len_long, hLen] using hSizes

/-- The payload of the second message then strands the buffer. -/
theorem remainder_not_spared {b : CDynBuffer} (alloc : Nat → Option Nat)
    (h : ((((construct 0).toCDynBuffer.afterAppend 4).afterAppend 22369614)).SameSizes b) :
    ¬b.StagesSpare (remainder.chunks alloc) := by
  intro hSpare
  obtain ⟨_, _, hPayload⟩ := hSpare
  rw [len_long] at hPayload
  have hAccepts : b.Accepts 4 (alloc 0) := by
    refine ⟨(h.refuses_iff 4).not.mpr (by decide), ?_⟩
    rw [h.size_eq, h.len_eq]
    exact fun hGrow => absurd hGrow (by decide)
  have hStrand := (hPayload hAccepts).2.1
  rw [len_zeros 11184808 (by decide), (h.afterAppend 4).stranded_iff] at hStrand
  exact hStrand (by decide)

/-- The second message is refused and takes the storage with it. -/
theorem nearly_full_add_loses :
    (run step World.initial (twoMessages large remainder)).isSome ∧
      ¬Always step FollowsHistory World.initial (twoMessages large remainder) := by
  obtain ⟨b, hRun, hSizes⟩ := sizes_after_large (fun k => some (1 + k)) (by simp)
  apply twoMessages_breaks (b := b)
  · rw [NewMsg.add_eq, addChunks, hRun]
    rfl
  · exact fun alloc => remainder_not_spared alloc hSizes

/-- The read pointer points into the storage that the same queue owns, and the
live bytes lie inside it. -/
def Attached (b : CDynBuffer) : Prop :=
  ∃ block off, b.m_pBuffer = some block ∧ block.bytes.length = b.m_lSize.toNat ∧
    b.m_pCur = some ⟨block.id, off⟩ ∧ off + b.m_lLen.toNat ≤ b.m_lSize.toNat

/-- Every queue is attached to its own storage and no message is lost or
duplicated. -/
def StaysAttached (w : World ι) : Prop :=
  FollowsHistory w ∧ w.queues.All fun q => Attached q.1.toCDynBuffer

omit [DecidableEq ι] in
theorem World.Intact.staysAttached {w : World ι} (h : w.Intact) : StaysAttached w := by
  refine ⟨h.followsHistory, h.2.mono fun q hq => ?_⟩
  obtain ⟨block, off, hHolds, _⟩ := hq.holds
  exact ⟨block, off, hHolds.buffer_eq, hHolds.size_eq, hHolds.cur_eq, hHolds.bound⟩

/-- Along every run, all queues stay attached to storage of their own and swaps
exchange their messages if and only if every call meets the guard. -/
theorem staysAttached_iff_sparesQueues (calls : List (Call ι))
    (hRun : (run step World.initial calls).isSome) :
    Always step StaysAttached World.initial calls ↔
      Guarded step SparesQueues World.initial calls :=
  always_iff_sparesQueues (fun _ h => h.staysAttached) (fun _ h => h.1) hRun

def fiveThousand : Chars := ⟨List.replicate 5000 65, by rw [List.length_replicate]; decide⟩

/-- A queue that has grown is swapped into a new one. -/
def swapGrown (ok : Bool) : List (Call Bool) :=
  [.construct true, .construct false, .add true (.plain fiveThousand) fun _ => true,
    .swap false true ok]

theorem staysAttached_iff_sparesQueues_bad_alloc :
    Always step StaysAttached World.initial (swapGrown false) ↔
      Guarded step SparesQueues World.initial (swapGrown false) :=
  staysAttached_iff_sparesQueues (swapGrown false) (by decide +kernel)

/-- With a new block the pair is left with a pointer into the released one. -/
theorem swap_leaves_dangling :
    (run step World.initial (swapGrown true)).isSome ∧
      ¬Always step StaysAttached World.initial (swapGrown true) := by
  have hLost : (run step World.initial (swapGrown true)).any (fun w =>
      (w.queues.get true).any fun q => q.1.toCDynBuffer.getBuffer.isNone) = true := by
    decide +kernel
  cases hRun : run step World.initial (swapGrown true) with
  | none =>
      rw [hRun] at hLost
      cases hLost
  | some w =>
      refine ⟨rfl, fun hAlways => ?_⟩
      have hFollows := (hAlways.finish hRun).1.2
      rw [hRun, Option.any_some] at hLost
      cases hGet : w.queues.get true with
      | none => simp [hGet] at hLost
      | some q =>
          rw [hGet, Option.any_some, (hFollows true q hGet).1] at hLost
          cases hLost

end CppPerf.Buffer.CDynMsg
