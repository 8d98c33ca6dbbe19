import CppPerf.Semantics.RingWindow
import CppPerf.Semantics.Run
import Mathlib.Logic.Function.Basic

/-! The ring buffer of `RingBufferAtomic.h` with one thread that calls `push`
and one that calls `pop`. Every load and store of `read` and `write`, and every
access to a slot, is a step of its own. `RING_SIZE` fits into `size_t`, so the
positions are numbers. -/
namespace CppPerf.Queue

structure CircularQueue (T : Type*) (BUF_SIZE : Nat) where
  read : Nat
  write : Nat
  queue : Nat → T

namespace CircularQueue

variable {T : Type*} {BUF_SIZE : Nat}

/-- One slot more than there are values, so that the writer never catches up. -/
def ringSize (BUF_SIZE : Nat) : Nat := BUF_SIZE + 1

def construct [Inhabited T] : CircularQueue T BUF_SIZE := ⟨0, 0, fun _ => default⟩

def size (q : CircularQueue T BUF_SIZE) : Nat :=
  let r := q.read
  let w := q.write
  if r ≤ w then w - r else w + ringSize BUF_SIZE - r

/-- Where `push` stands: before the load of `read`, before the write of the
slot, before the store of `write`. -/
inductive Producer (T : Type*) where
  | idle
  | loadedWrite (val : T) (write_pos : Nat)
  | notFull (val : T) (write_pos next_write : Nat)
  | filled (val : T) (next_write : Nat)

/-- Where `pop` stands: before the load of `write`, before the store of `read`,
before the slot is moved out. -/
inductive Consumer where
  | idle
  | loadedRead (read_pos : Nat)
  | nonEmpty (read_pos : Nat)
  | advanced (read_pos : Nat)

/-- One thread at each end. `pushed` are the values of the calls of `push` that
returned true, `popped` those that successful calls of `pop` returned. -/
structure System (T : Type*) (BUF_SIZE : Nat) where
  q : CircularQueue T BUF_SIZE
  producer : Producer T
  consumer : Consumer
  pushed : List T
  popped : List T

inductive Action (T : Type*) where
  /-- A call of `push`, and its load of `write`. -/
  | push (val : T)
  /-- The next step of the call of `push`. -/
  | produce
  /-- A call of `pop`, and its load of `read`. -/
  | pop
  /-- The next step of the call of `pop`. `rest` is what a move would leave
  behind in the slot. -/
  | consume (rest : T)

namespace System

def initial [Inhabited T] : System T BUF_SIZE := ⟨construct, .idle, .idle, [], []⟩

def pushStep (s : System T BUF_SIZE) : Option (System T BUF_SIZE) :=
  match s.producer with
  | .idle => none
  | .loadedWrite val write_pos =>
      let next_write := (write_pos + 1) % ringSize BUF_SIZE
      if next_write == s.q.read then some { s with producer := .idle }
      else some { s with producer := .notFull val write_pos next_write }
  | .notFull val write_pos next_write =>
      some { s with
        q := { s.q with queue := Function.update s.q.queue write_pos val }
        producer := .filled val next_write }
  | .filled val next_write =>
      some { s with
        q := { s.q with write := next_write }
        producer := .idle
        pushed := s.pushed ++ [val] }

def popStep (s : System T BUF_SIZE) (rest : T) : Option (System T BUF_SIZE) :=
  match s.consumer with
  | .idle => none
  | .loadedRead read_pos =>
      if s.q.write == read_pos then some { s with consumer := .idle }
      else some { s with consumer := .nonEmpty read_pos }
  | .nonEmpty read_pos =>
      some { s with
        q := { s.q with read := (read_pos + 1) % ringSize BUF_SIZE }
        consumer := .advanced read_pos }
  | .advanced read_pos =>
      some { s with
        q := { s.q with queue := Function.update s.q.queue read_pos rest }
        consumer := .idle
        popped := s.popped ++ [s.q.queue read_pos] }

def step (s : System T BUF_SIZE) : Action T → Option (System T BUF_SIZE)
  | .push val =>
      match s.producer with
      | .idle => some { s with producer := .loadedWrite val s.q.write }
      | _ => none
  | .produce => s.pushStep
  | .pop =>
      match s.consumer with
      | .idle => some { s with consumer := .loadedRead s.q.read }
      | _ => none
  | .consume rest => s.popStep rest

/-- Values that were accepted and have not been moved out. -/
def stored (s : System T BUF_SIZE) : Nat := s.pushed.length - s.popped.length

end System
end CircularQueue
end CppPerf.Queue

/-! The ring buffer is a queue in every interleaving of its two threads. The
slot that a call of `pop` still has to empty is the one slot that the writer
leaves free. -/
namespace CppPerf.Queue.CircularQueue

open Ring Transition

variable {T : Type*} {BUF_SIZE : Nat}

/-- `read` runs ahead of the values moved out by one during `pop`. -/
def Consumer.ahead : Consumer → Nat
  | .idle | .loadedRead _ | .nonEmpty _ => 0
  | .advanced _ => 1

/-- The value in a slot that `write` does not cover yet. -/
def Producer.unpublished : Producer T → List T
  | .idle | .loadedWrite _ _ | .notFull _ _ _ => []
  | .filled val _ => [val]

namespace System

/-- What the two threads can rely on. -/
structure Safe (s : System T BUF_SIZE) : Prop where
  fifo : s.popped <+: s.pushed
  noOverwrite : ∀ val write_pos next_write read_pos,
    s.producer = .notFull val write_pos next_write → s.consumer = .advanced read_pos →
      write_pos ≠ read_pos
  size_le : s.q.size ≤ BUF_SIZE
  stored_le : s.stored ≤ BUF_SIZE + s.consumer.ahead

/-- What the producer has loaded stays true until it publishes: the reader can
only make more room. -/
def ProducerKnows (s : System T BUF_SIZE) (content : List T) : Prop :=
  match s.producer with
  | .idle => True
  | .loadedWrite _ write_pos => write_pos = s.pushed.length % ringSize BUF_SIZE
  | .notFull _ write_pos next_write =>
      write_pos = s.pushed.length % ringSize BUF_SIZE ∧
        next_write = (s.pushed.length + 1) % ringSize BUF_SIZE ∧
        content.length < BUF_SIZE + s.consumer.ahead
  | .filled _ next_write =>
      next_write = (s.pushed.length + 1) % ringSize BUF_SIZE ∧
        content.length < BUF_SIZE + s.consumer.ahead

def ConsumerKnows (s : System T BUF_SIZE) (content : List T) : Prop :=
  match s.consumer with
  | .idle => True
  | .loadedRead read_pos => read_pos = s.popped.length % ringSize BUF_SIZE
  | .nonEmpty read_pos => read_pos = s.popped.length % ringSize BUF_SIZE ∧ content ≠ []
  | .advanced read_pos => read_pos = s.popped.length % ringSize BUF_SIZE ∧ content ≠ []

/-- The invariant. `content` is what was pushed and not moved out. Counted
without wrapping, `read` and `write` are the lengths of the two histories. -/
structure Consistent (s : System T BUF_SIZE) (content : List T) : Prop where
  pushed_eq : s.pushed = s.popped ++ content
  read_eq : s.q.read = (s.popped.length + s.consumer.ahead) % ringSize BUF_SIZE
  write_eq : s.q.write = s.pushed.length % ringSize BUF_SIZE
  room : content.length ≤ BUF_SIZE + s.consumer.ahead
  window : Window s.q.queue (ringSize BUF_SIZE) s.popped.length
    (content ++ s.producer.unpublished)
  producer : s.ProducerKnows content
  consumer : s.ConsumerKnows content

variable {s t : System T BUF_SIZE} {content : List T}

namespace Consistent

theorem length_eq (hc : s.Consistent content) :
    s.pushed.length = s.popped.length + content.length := by
  rw [hc.pushed_eq, List.length_append]

theorem ahead_le (hc : s.Consistent content) : s.consumer.ahead ≤ content.length := by
  have hKnows := hc.consumer
  unfold ConsumerKnows at hKnows
  cases hPhase : s.consumer with
  | advanced read_pos =>
      rw [hPhase] at hKnows
      exact List.length_pos_iff.mpr hKnows.2
  | idle => exact Nat.zero_le _
  | loadedRead read_pos => exact Nat.zero_le _
  | nonEmpty read_pos => exact Nat.zero_le _

theorem safe (hc : s.Consistent content) : s.Safe where
  fifo := ⟨content, hc.pushed_eq.symm⟩
  noOverwrite := by
    intro val write_pos next_write read_pos hProducer hConsumer hEq
    have hWrite := hc.producer
    have hRead := hc.consumer
    have hLength := hc.length_eq
    rw [ProducerKnows, hProducer, hConsumer] at hWrite
    rw [ConsumerKnows, hConsumer] at hRead
    obtain ⟨hWritePos, _, hRoom⟩ := hWrite
    have hPos := List.length_pos_iff.mpr hRead.2
    simp only [Consumer.ahead] at hRoom
    rw [hWritePos, hRead.1] at hEq
    have hSame := mod_inj (show s.popped.length ≤ s.pushed.length by omega)
      (by rw [ringSize]; omega) hEq.symm
    omega
  size_le := by
    have hLength := hc.length_eq
    have hAhead := hc.ahead_le
    have hRoom := hc.room
    unfold size
    simp only [hc.read_eq, hc.write_eq]
    rw [distance_mod (by omega) (by rw [ringSize]; omega)]
    omega
  stored_le := by
    have hLength := hc.length_eq
    have hRoom := hc.room
    unfold stored
    omega

/-- The reader only makes more room. -/
theorem producer_mono (hc : s.Consistent content) {content' : List T}
    (hPhase : t.producer = s.producer) (hPushed : t.pushed = s.pushed)
    (hRoom : content'.length + s.consumer.ahead ≤ content.length + t.consumer.ahead) :
    t.ProducerKnows content' := by
  have hKnows := hc.producer
  unfold ProducerKnows at hKnows ⊢
  rw [hPhase, hPushed]
  cases hProducer : s.producer with
  | idle => trivial
  | loadedWrite val write_pos =>
      rw [hProducer] at hKnows
      exact hKnows
  | notFull val write_pos next_write =>
      rw [hProducer] at hKnows
      exact ⟨hKnows.1, hKnows.2.1, by have hOld := hKnows.2.2; omega⟩
  | filled val next_write =>
      rw [hProducer] at hKnows
      exact ⟨hKnows.1, by have hOld := hKnows.2; omega⟩

/-- With all slots but one in use `next_write` would be `read`. -/
theorem room_of_next_ne (hc : s.Consistent content)
    (hNext : (s.pushed.length + 1) % ringSize BUF_SIZE ≠ s.q.read) :
    content.length < BUF_SIZE + s.consumer.ahead := by
  have hLength := hc.length_eq
  have hRoom := hc.room
  by_contra hAll
  apply hNext
  have hRound : s.pushed.length + 1 =
      s.popped.length + s.consumer.ahead + ringSize BUF_SIZE := by
    rw [ringSize]
    omega
  rw [hRound, Nat.add_mod_right, hc.read_eq]

/-- The slot that `write` points to is free, also while the reader still has
to empty the slot before `read`. -/
theorem fill (hc : s.Consistent content) {val : T} {write_pos next_write : Nat}
    (hPhase : s.producer = .notFull val write_pos next_write) :
    ({ s with
        q := { s.q with queue := Function.update s.q.queue write_pos val }
        producer := .filled val next_write } : System T BUF_SIZE).Consistent content := by
  have hKnows := hc.producer
  have hWindow := hc.window
  rw [ProducerKnows, hPhase] at hKnows
  rw [hPhase, Producer.unpublished, List.append_nil] at hWindow
  obtain ⟨hWritePos, hNext, hRoom⟩ := hKnows
  have hAhead : s.consumer.ahead ≤ 1 := by
    cases s.consumer <;> simp [Consumer.ahead]
  have hNew := hWindow.push (show content.length < ringSize BUF_SIZE by rw [ringSize]; omega) val
  rw [← hc.length_eq, ← hWritePos] at hNew
  exact ⟨hc.1, hc.2, hc.3, hc.4, hNew, ⟨hNext, hRoom⟩, hc.7⟩

theorem publish (hc : s.Consistent content) {val : T} {next_write : Nat}
    (hPhase : s.producer = .filled val next_write) :
    ({ s with
        q := { s.q with write := next_write }
        producer := .idle
        pushed := s.pushed ++ [val] } : System T BUF_SIZE).Consistent (content ++ [val]) := by
  have hKnows := hc.producer
  have hWindow := hc.window
  rw [ProducerKnows, hPhase] at hKnows
  rw [hPhase, Producer.unpublished] at hWindow
  obtain ⟨hNext, hRoom⟩ := hKnows
  refine ⟨?_, hc.2, ?_, ?_, ?_, trivial, ?_⟩
  · simp only [hc.pushed_eq, List.append_assoc]
  · rw [List.length_append, List.length_singleton]
    exact hNext
  · rw [List.length_append, List.length_singleton]
    exact hRoom
  · rwa [Producer.unpublished, List.append_nil]
  · have hConsumer := hc.consumer
    unfold ConsumerKnows at hConsumer ⊢
    cases hReader : s.consumer with
    | idle => trivial
    | loadedRead read_pos =>
        rw [hReader] at hConsumer
        exact hConsumer
    | nonEmpty read_pos =>
        rw [hReader] at hConsumer
        exact ⟨hConsumer.1, by simp⟩
    | advanced read_pos =>
        rw [hReader] at hConsumer
        exact ⟨hConsumer.1, by simp⟩

theorem advance (hc : s.Consistent content) {read_pos : Nat}
    (hPhase : s.consumer = .nonEmpty read_pos) :
    ({ s with
        q := { s.q with read := (read_pos + 1) % ringSize BUF_SIZE }
        consumer := .advanced read_pos } : System T BUF_SIZE).Consistent content := by
  have hKnows := hc.consumer
  have hRoom := hc.room
  rw [ConsumerKnows, hPhase] at hKnows
  rw [hPhase] at hRoom
  refine ⟨hc.1, ?_, hc.3, Nat.le_succ_of_le hRoom, hc.5, ?_, hKnows⟩
  · rw [Consumer.ahead, hKnows.1]
    exact succ_mod _ _
  · refine hc.producer_mono rfl rfl ?_
    rw [hPhase]
    exact Nat.le_succ _

theorem moveOut (hc : s.Consistent content) {read_pos : Nat}
    (hPhase : s.consumer = .advanced read_pos) (rest : T) :
    ∃ content', ({ s with
        q := { s.q with queue := Function.update s.q.queue read_pos rest }
        consumer := .idle
        popped := s.popped ++ [s.q.queue read_pos] } : System T BUF_SIZE).Consistent content' := by
  have hKnows := hc.consumer
  have hRoom := hc.room
  have hRead := hc.read_eq
  have hWindow := hc.window
  rw [ConsumerKnows, hPhase] at hKnows
  rw [hPhase] at hRoom hRead
  obtain ⟨hPos, hSome⟩ := hKnows
  obtain ⟨x, later, rfl⟩ := List.exists_cons_of_ne_nil hSome
  rw [List.cons_append] at hWindow
  have hFirst : s.q.queue read_pos = x := by
    rw [hPos]
    exact hWindow.head
  have hLength : (s.popped ++ [x]).length = s.popped.length + 1 := by
    rw [List.length_append, List.length_singleton]
  -- A slot that is filled but not published counts against the room as well.
  have hFit : (later ++ s.producer.unpublished).length < ringSize BUF_SIZE := by
    have hProducer := hc.producer
    simp only [Consumer.ahead, List.length_cons] at hRoom
    unfold ProducerKnows at hProducer
    rw [List.length_append, ringSize]
    cases hWriter : s.producer with
    | filled val next_write =>
        rw [hWriter, hPhase] at hProducer
        have hSlack := hProducer.2
        simp only [Consumer.ahead, List.length_cons] at hSlack
        simp only [Producer.unpublished, List.length_singleton]
        omega
    | idle | loadedWrite val write_pos | notFull val write_pos next_write =>
        simp only [Producer.unpublished, List.length_nil]
        omega
  refine ⟨later, ?_, ?_, hc.3, ?_, ?_, ?_, trivial⟩
  · simp only [hFirst, List.append_assoc, List.singleton_append]
    exact hc.pushed_eq
  · simp only [hFirst, hLength]
    exact hRead
  · simp only [Consumer.ahead, List.length_cons] at hRoom ⊢
    omega
  · simp only [hFirst, hLength]
    rw [hPos]
    exact hWindow.pop hFit rest
  · refine hc.producer_mono rfl rfl ?_
    rw [hPhase]
    exact Nat.le_refl _

theorem pushStep (hc : s.Consistent content) (hStep : s.pushStep = some t) :
    ∃ content', t.Consistent content' := by
  unfold System.pushStep at hStep
  cases hPhase : s.producer with
  | idle =>
      rw [hPhase] at hStep
      cases hStep
  | loadedWrite val write_pos =>
      have hKnows := hc.producer
      have hWindow := hc.window
      rw [ProducerKnows, hPhase] at hKnows
      rw [hPhase] at hStep hWindow
      have hNext : (write_pos + 1) % ringSize BUF_SIZE =
          (s.pushed.length + 1) % ringSize BUF_SIZE := by
        rw [hKnows, succ_mod]
      simp only at hStep
      split_ifs at hStep with hFull
      · obtain rfl := Option.some.inj hStep
        exact ⟨content, hc.1, hc.2, hc.3, hc.4, hWindow, trivial, hc.7⟩
      · obtain rfl := Option.some.inj hStep
        rw [hNext] at hFull
        have hRoom := hc.room_of_next_ne (by simpa using hFull)
        exact ⟨content, hc.1, hc.2, hc.3, hc.4, hWindow, ⟨hKnows, hNext, hRoom⟩, hc.7⟩
  | notFull val write_pos next_write =>
      rw [hPhase] at hStep
      obtain rfl := Option.some.inj hStep
      exact ⟨content, hc.fill hPhase⟩
  | filled val next_write =>
      rw [hPhase] at hStep
      obtain rfl := Option.some.inj hStep
      exact ⟨content ++ [val], hc.publish hPhase⟩

theorem popStep (hc : s.Consistent content) {rest : T} (hStep : s.popStep rest = some t) :
    ∃ content', t.Consistent content' := by
  unfold System.popStep at hStep
  cases hPhase : s.consumer with
  | idle =>
      rw [hPhase] at hStep
      cases hStep
  | loadedRead read_pos =>
      have hKnows := hc.consumer
      have hRoom := hc.room
      have hRead := hc.read_eq
      have hProducer : ∀ consumer : Consumer, consumer.ahead = 0 →
          ({ s with consumer := consumer } : System T BUF_SIZE).ProducerKnows content := by
        intro consumer hZero
        refine hc.producer_mono rfl rfl ?_
        rw [hPhase, hZero]
        exact Nat.le_refl _
      rw [ConsumerKnows, hPhase] at hKnows
      rw [hPhase] at hStep hRoom hRead
      simp only at hStep
      split_ifs at hStep with hEmpty
      · obtain rfl := Option.some.inj hStep
        exact ⟨content, hc.1, hRead, hc.3, hRoom, hc.5, hProducer .idle rfl, trivial⟩
      · obtain rfl := Option.some.inj hStep
        refine ⟨content, hc.1, hRead, hc.3, hRoom, hc.5, hProducer (.nonEmpty read_pos) rfl,
          hKnows, ?_⟩
        rintro rfl
        apply hEmpty
        rw [hc.write_eq, hc.pushed_eq, List.append_nil, hKnows]
        exact beq_self_eq_true _
  | nonEmpty read_pos =>
      rw [hPhase] at hStep
      obtain rfl := Option.some.inj hStep
      exact ⟨content, hc.advance hPhase⟩
  | advanced read_pos =>
      rw [hPhase] at hStep
      obtain rfl := Option.some.inj hStep
      exact hc.moveOut hPhase rest

theorem step (hc : s.Consistent content) {action : Action T} (hStep : s.step action = some t) :
    ∃ content', t.Consistent content' := by
  cases action with
  | produce => exact hc.pushStep hStep
  | consume rest => exact hc.popStep hStep
  | push val =>
      simp only [System.step] at hStep
      split at hStep
      · rename_i hPhase
        obtain rfl := Option.some.inj hStep
        have hWindow := hc.window
        rw [hPhase] at hWindow
        exact ⟨content, hc.1, hc.2, hc.3, hc.4, hWindow, hc.write_eq, hc.7⟩
      · cases hStep
  | pop =>
      simp only [System.step] at hStep
      split at hStep
      · rename_i hPhase
        obtain rfl := Option.some.inj hStep
        have hRoom := hc.room
        have hRead := hc.read_eq
        rw [hPhase] at hRoom hRead
        refine ⟨content, hc.1, hRead, hc.3, hRoom, hc.5, ?_, hRead⟩
        refine hc.producer_mono rfl rfl ?_
        rw [hPhase]
        exact Nat.le_refl _
      · cases hStep

end Consistent

theorem initial_consistent [Inhabited T] : (initial : System T BUF_SIZE).Consistent [] where
  pushed_eq := rfl
  read_eq := (Nat.zero_mod _).symm
  write_eq := (Nat.zero_mod _).symm
  room := Nat.zero_le _
  window := Window.nil _ _ _
  producer := trivial
  consumer := trivial

/-- In every interleaving the values come out in the order in which they went
in, the writer stays away from the slot that a call of `pop` has claimed, and
no more values are stored than the queue has room for, apart from the one in
that slot. -/
theorem always_safe [Inhabited T] (actions : List (Action T)) :
    Always System.step Safe (initial : System T BUF_SIZE) actions := by
  have hAlways : Always System.step (fun s : System T BUF_SIZE => ∃ content, s.Consistent content)
      initial actions := by
    apply always_of_invariant _ actions ⟨[], initial_consistent⟩
    rintro s action t ⟨content, hc⟩ hStep
    exact hc.step hStep
  apply hAlways.mono
  rintro s ⟨content, hc⟩
  exact hc.safe

/-- While a call of `pop` empties its slot, a queue of one value holds two. -/
theorem capacity_exceeded :
    ∃ s : System Nat 1,
      run System.step initial [.push 10, .produce, .produce, .produce, .pop, .consume 0, .consume 0,
        .push 20, .produce, .produce, .produce] = some s ∧
      s.pushed = [10, 20] ∧ s.popped = [] ∧ s.q.queue 0 = 10 ∧ s.q.queue 1 = 20 ∧
      ¬s.stored ≤ 1 :=
  ⟨_, rfl, rfl, rfl, rfl, rfl, by decide⟩

end System
end CppPerf.Queue.CircularQueue
