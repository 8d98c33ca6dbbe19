import CppPerf.Actors.PhilosophersForks

/-! The philosophers never wait for each other in a circle. The first fork of
a seat is the left one if the seat is even and the right one if it is odd, so
no odd fork is anybody's first fork. -/
namespace CppPerf.Actors

open Indexed Transition

def ActorMessages.isRequest : ActorMessages → Bool
  | .forkRequest _ _ => true
  | .forkResponse _ _ => false
  | .forkRelease _ _ => false

namespace Philosopher

/-- The fork that the philosopher asks for when it has none. -/
def first (ph : Philosopher) : ChopstickState :=
  if ph.left.chop_id % 2 = 0 then ph.left else ph.right

def second (ph : Philosopher) : ChopstickState :=
  if ph.left.chop_id % 2 = 0 then ph.right else ph.left

/-- The second fork is granted or held only after the first one. -/
structure Ordered (ph : Philosopher) : Prop where
  granted : .forkResponse ph.second.chop_id true ∈ ph.messages → ph.first.is_acquired
  held : ph.second.is_acquired → ph.first.is_acquired

/-- The forks stay the same two, and one that is held is not given up. -/
structure Keeps (ph ph' : Philosopher) : Prop where
  left_id : ph'.left.chop_id = ph.left.chop_id
  right_id : ph'.right.chop_id = ph.right.chop_id
  left : ph.left.is_acquired → ph'.left.is_acquired
  right : ph.right.is_acquired → ph'.right.is_acquired

variable {N p : Nat} {ph ph' ph'' : Philosopher} {msg : ActorMessages} {rest : List ActorMessages}

namespace Keeps

theorem trans (h : Keeps ph ph') (h' : Keeps ph' ph'') : Keeps ph ph'' where
  left_id := h'.left_id.trans h.left_id
  right_id := h'.right_id.trans h.right_id
  left := fun hLeft => h'.left (h.left hLeft)
  right := fun hRight => h'.right (h.right hRight)

theorem hasBoth (h : Keeps ph ph') (hBoth : ph.hasBoth) : ph'.hasBoth := by
  simp only [Philosopher.hasBoth, Bool.and_eq_true] at hBoth ⊢
  exact ⟨h.left hBoth.1, h.right hBoth.2⟩

theorem first (h : Keeps ph ph') (hFirst : ph.first.is_acquired) : ph'.first.is_acquired := by
  unfold Philosopher.first at hFirst ⊢
  rw [h.left_id]
  split_ifs at hFirst ⊢ with hEven
  · exact h.left hFirst
  · exact h.right hFirst

theorem second_id (h : Keeps ph ph') : ph'.second.chop_id = ph.second.chop_id := by
  unfold second
  rw [h.left_id]
  split_ifs with hEven
  · exact h.right_id
  · exact h.left_id

end Keeps

theorem receive_keeps (ph : Philosopher) (msg : ActorMessages) (rest : List ActorMessages) :
    Keeps ph { ph.receive msg with messages := rest } := by
  cases msg with
  | forkRequest fork philo => exact ⟨rfl, rfl, id, id⟩
  | forkRelease fork1 fork2 => exact ⟨rfl, rfl, id, id⟩
  | forkResponse fork granted =>
      simp only [receive]
      split_ifs with hDenied hLeft hRight
      · exact ⟨rfl, rfl, id, id⟩
      · exact ⟨rfl, rfl, fun _ => rfl, id⟩
      · exact ⟨rfl, rfl, id, fun _ => rfl⟩
      · exact ⟨rfl, rfl, id, id⟩

theorem enqueue_keeps (ph : Philosopher) (msg : ActorMessages) : Keeps ph (ph.enqueue msg) :=
  ⟨rfl, rfl, id, id⟩

theorem drain_keeps (ph : Philosopher) (msgs : List ActorMessages) : Keeps ph (ph.drain msgs) := by
  induction msgs generalizing ph with
  | nil => exact ⟨rfl, rfl, id, id⟩
  | cons msg rest ih => exact (receive_keeps ph msg rest).trans (ih _)

theorem turn_keeps (ph : Philosopher) : Keeps ph ph.turn.1 := by
  by_cases hBoth : ph.hasBoth
  · rw [turn_of_hasBoth hBoth]
    exact ⟨rfl, rfl, id, id⟩
  · rw [turn_of_not_hasBoth hBoth]
    exact ⟨rfl, rfl, id, id⟩

theorem hasBoth_eq (ph : Philosopher) :
    ph.hasBoth = (ph.first.is_acquired && ph.second.is_acquired) := by
  unfold hasBoth first second
  split_ifs
  · rfl
  · exact Bool.and_comm _ _

theorem side_of_held (hs : ph.Seated N p) {fork : Nat} (hHeld : ph.held fork ≠ 0) :
    ph.left.is_acquired ∧ fork = p ∨ ph.right.is_acquired ∧ fork = (p + 1) % N := by
  rw [held, ChopstickState.holds, ChopstickState.holds, hs.left_id, hs.right_id] at hHeld
  by_cases hLeft : (ph.left.is_acquired && p == fork) = true
  · simp only [Bool.and_eq_true, beq_iff_eq] at hLeft
    exact Or.inl ⟨hLeft.1, hLeft.2.symm⟩
  · have hRight : (ph.right.is_acquired && (p + 1) % N == fork) = true := by
      simpa [hLeft] using hHeld
    simp only [Bool.and_eq_true, beq_iff_eq] at hRight
    exact Or.inr ⟨hRight.1, hRight.2.symm⟩

/-- Only a grant of the second fork makes it held. -/
theorem receive_second (ph : Philosopher) (msg : ActorMessages) (rest : List ActorMessages)
    (hHeld : ({ ph.receive msg with messages := rest } : Philosopher).second.is_acquired) :
    ph.second.is_acquired ∨ msg = .forkResponse ph.second.chop_id true := by
  cases msg with
  | forkRequest fork philo => exact Or.inl hHeld
  | forkRelease fork1 fork2 => exact Or.inl hHeld
  | forkResponse fork granted =>
      simp only [receive, second] at hHeld ⊢
      cases granted with
      | false => exact Or.inl hHeld
      | true =>
          simp only [Bool.not_true, Bool.false_eq_true, ↓reduceIte, beq_iff_eq] at hHeld
          split_ifs at hHeld ⊢ with hLeft hEven hRight <;> simp_all

theorem receive_ordered (ho : ph.Ordered) (hInbox : ph.messages = msg :: rest) :
    ({ ph.receive msg with messages := rest } : Philosopher).Ordered := by
  have hKeeps := receive_keeps ph msg rest
  constructor
  · intro hGrant
    rw [hKeeps.second_id] at hGrant
    exact hKeeps.first (ho.granted (hInbox ▸ List.mem_cons_of_mem msg hGrant))
  · intro hHeld
    rcases receive_second ph msg rest hHeld with hOld | rfl
    · exact hKeeps.first (ho.held hOld)
    · exact hKeeps.first (ho.granted (by rw [hInbox]; exact List.mem_cons_self))

theorem drain_ordered (msgs : List ActorMessages) (ho : ph.Ordered) (hInbox : ph.messages = msgs) :
    (ph.drain msgs).Ordered := by
  induction msgs generalizing ph with
  | nil => exact ⟨fun hGrant => absurd hGrant List.not_mem_nil, ho.held⟩
  | cons msg rest ih => exact ih (receive_ordered ho hInbox) rfl

theorem requested_of_left (hLeft : ph.left.is_acquired) : ph.requested = ph.right.chop_id := by
  simp [requested, hLeft]

theorem requested_of_right (hLeft : ¬ph.left.is_acquired) (hRight : ph.right.is_acquired) :
    ph.requested = ph.left.chop_id := by
  simp [requested, hLeft, hRight]

theorem requested_of_even (hLeft : ¬ph.left.is_acquired) (hEven : ph.left.chop_id % 2 = 0) :
    ph.requested = ph.left.chop_id := by
  simp [requested, hLeft, hEven]

theorem requested_of_odd (hRight : ¬ph.right.is_acquired) (hOdd : ¬ph.left.chop_id % 2 = 0) :
    ph.requested = ph.right.chop_id := by
  simp [requested, hRight, hOdd]

/-- The run loop asks for the second fork only with the first one in hand. -/
theorem first_of_requested (hNe : ph.right.chop_id ≠ ph.left.chop_id)
    (hRequest : ph.requested = ph.second.chop_id) : ph.first.is_acquired := by
  unfold second at hRequest
  unfold first
  by_contra hMissing
  split_ifs at hRequest hMissing with hEven
  · exact hNe (hRequest.symm.trans (requested_of_even hMissing hEven))
  · exact hNe ((requested_of_odd hMissing hEven).symm.trans hRequest)

end Philosopher

namespace DiningTable

/-- No fork is on its way, in either direction. -/
structure Quiet (d : DiningTable) : Prop where
  table : ∀ msg ∈ d.messages, msg.isRequest
  seats : ∀ p < d.philosophers.size, ∀ msg ∈ (d.philosophers.get p).messages, msg.isRequest

/-- A philosopher can eat. -/
def Fed (d : DiningTable) : Prop :=
  ∃ p < d.philosophers.size, (d.philosophers.get p).hasBoth

/-- Somebody can eat, or asks for a fork that it will be granted. -/
def Progresses (d : DiningTable) : Prop :=
  d.Quiet → d.Fed ∨
    ∃ p < d.philosophers.size, d.chopsticks_state.get (d.philosophers.get p).requested = true

structure Ordered (d : DiningTable) : Prop where
  seats : ∀ p < d.philosophers.size, (d.philosophers.get p).Ordered
  requests : ∀ p < d.philosophers.size,
    .forkRequest (d.philosophers.get p).second.chop_id p ∈ d.messages →
      (d.philosophers.get p).first.is_acquired

variable {N : Nat} {d d' : DiningTable}

theorem Fed.of_keeps (hFed : d.Fed) (hSize : d'.philosophers.size = d.philosophers.size)
    (hKeeps : ∀ p, Philosopher.Keeps (d.philosophers.get p) (d'.philosophers.get p)) :
    d'.Fed := by
  obtain ⟨p, hp, hBoth⟩ := hFed
  exact ⟨p, hSize.symm ▸ hp, (hKeeps p).hasBoth hBoth⟩

theorem set_keeps (d : DiningTable) {p : Nat} {ph : Philosopher}
    (h : Philosopher.Keeps (d.philosophers.get p) ph) (q : Nat) :
    Philosopher.Keeps (d.philosophers.get q) ((d.philosophers.set p ph).get q) := by
  rw [Vec.get_set]
  split_ifs with hSame
  · rw [hSame]
    exact h
  · exact ⟨rfl, rfl, id, id⟩

theorem receive_keeps (d : DiningTable) (msg : ActorMessages) (q : Nat) :
    Philosopher.Keeps (d.philosophers.get q) ((d.receive msg).philosophers.get q) := by
  cases msg with
  | forkRelease fork1 fork2 => exact ⟨rfl, rfl, id, id⟩
  | forkResponse fork granted => exact ⟨rfl, rfl, id, id⟩
  | forkRequest fork philo =>
      simp only [receive]
      split_ifs with hTaken
      · exact ⟨rfl, rfl, id, id⟩
      · exact d.set_keeps (Philosopher.enqueue_keeps _ _) q

theorem receive_size (d : DiningTable) (msg : ActorMessages) :
    (d.receive msg).philosophers.size = d.philosophers.size := by
  cases msg with
  | forkRelease fork1 fork2 => rfl
  | forkResponse fork granted => rfl
  | forkRequest fork philo =>
      simp only [receive]
      split_ifs <;> rfl

/-- A philosopher that has both forks keeps them for good. -/
theorem Fed.step (hFed : d.Fed) {action : Action} (hStep : d.step action = some d') : d'.Fed := by
  cases action with
  | receive =>
      simp only [DiningTable.step] at hStep
      split at hStep
      · cases hStep
      · obtain rfl := Option.some.inj hStep
        exact hFed.of_keeps (d.receive_size _) (d.receive_keeps _)
  | drain p =>
      obtain ⟨hReady, rfl⟩ := of_ite_eq_some hStep
      exact hFed.of_keeps rfl (d.set_keeps (Philosopher.drain_keeps _ _))
  | turn p =>
      obtain ⟨hReady, rfl⟩ := of_ite_eq_some hStep
      exact hFed.of_keeps rfl (d.set_keeps (Philosopher.turn_keeps _))

theorem nobodyEats_of_hungry (hHungry : ¬d.Fed) {action : Action}
    (hStep : d.step action = some d') : d.NobodyEats action := by
  cases action with
  | receive => trivial
  | drain p => trivial
  | turn p =>
      simp only [DiningTable.step] at hStep
      split_ifs at hStep with hReady
      exact fun hBoth => hHungry ⟨p, hReady.1, hBoth⟩

theorem turn_of_hungry (hc : d.Consistent N) (hHungry : ¬d.Fed) {p : Nat} (hp : p < N) :
    (d.philosophers.get p).turn = ({ d.philosophers.get p with drained := false },
      .forkRequest (d.philosophers.get p).requested p) := by
  have hLacks : ¬(d.philosophers.get p).hasBoth := by
    intro hBoth
    exact hHungry ⟨p, hc.seats.symm ▸ hp, hBoth⟩
  rw [Philosopher.turn_of_not_hasBoth hLacks, (hc.seated p hp).left_id]

namespace Ordered

theorem receive (ho : d.Ordered) (hc : d.Consistent N) {msg : ActorMessages}
    {rest : List ActorMessages} (hInbox : d.messages = msg :: rest) :
    ({ d.receive msg with messages := rest } : DiningTable).Ordered := by
  obtain ⟨fork, philo, hPhilo, _, rfl⟩ := hc.requests msg (by simp [hInbox])
  have hFront := ho.requests philo (hc.seats.symm ▸ hPhilo)
  have hRest : ∀ p < d.philosophers.size,
      .forkRequest (d.philosophers.get p).second.chop_id p ∈ rest →
        (d.philosophers.get p).first.is_acquired := by
    intro p hp hRequest
    exact ho.requests p hp (hInbox ▸ List.mem_cons_of_mem _ hRequest)
  simp only [DiningTable.receive]
  split_ifs with hTaken
  · exact ⟨ho.seats, hRest⟩
  · constructor
    · intro p hp
      simp only [send, Vec.get_set]
      split_ifs with hSame
      · subst hSame
        refine ⟨?_, (ho.seats p hp).held⟩
        intro hGrant
        simp only [Philosopher.enqueue, List.mem_append, List.mem_singleton,
          ActorMessages.forkResponse.injEq, and_true] at hGrant
        rcases hGrant with hOld | hNew
        · exact (ho.seats p hp).granted hOld
        · -- The request that is granted was sent with the first fork in hand.
          apply hFront
          rw [hInbox, ← hNew]
          exact List.mem_cons_self
      · exact ho.seats p hp
    · intro p hp
      simp only [send, Vec.get_set]
      split_ifs with hSame
      · subst hSame
        exact hRest p hp
      · exact hRest p hp

theorem drain (ho : d.Ordered) (p : Nat) :
    ({ d with
        philosophers := d.philosophers.set p
          ((d.philosophers.get p).drain (d.philosophers.get p).messages) } :
      DiningTable).Ordered := by
  have hKeeps := d.set_keeps (Philosopher.drain_keeps (d.philosophers.get p)
    (d.philosophers.get p).messages)
  constructor
  · intro q hq
    simp only [Vec.get_set]
    split_ifs with hSame
    · subst hSame
      exact Philosopher.drain_ordered _ (ho.seats q hq) rfl
    · exact ho.seats q hq
  · intro q hq hRequest
    simp only [(hKeeps q).second_id] at hRequest
    exact (hKeeps q).first (ho.requests q hq hRequest)

theorem turn (ho : d.Ordered) (hc : d.Consistent N) (hN : 2 ≤ N) (hHungry : ¬d.Fed) {p : Nat}
    (hp : p < N) :
    ({ d with
        messages := d.messages ++ [(d.philosophers.get p).turn.2]
        philosophers := d.philosophers.set p (d.philosophers.get p).turn.1 } :
      DiningTable).Ordered := by
  have hs := hc.seated p hp
  rw [turn_of_hungry hc hHungry hp]
  constructor
  · intro q hq
    simp only [Vec.get_set]
    split_ifs with hSame
    · subst hSame
      exact ⟨(ho.seats q hq).granted, (ho.seats q hq).held⟩
    · exact ho.seats q hq
  · intro q hq hRequest
    have hKeeps := d.set_keeps (show Philosopher.Keeps (d.philosophers.get p)
      { d.philosophers.get p with drained := false } from ⟨rfl, rfl, id, id⟩) q
    apply hKeeps.first
    simp only [hKeeps.second_id, List.mem_append, List.mem_singleton,
      ActorMessages.forkRequest.injEq] at hRequest
    rcases hRequest with hOld | ⟨hSecond, rfl⟩
    · exact ho.requests q hq hOld
    · apply Philosopher.first_of_requested _ hSecond.symm
      rw [hs.left_id, hs.right_id]
      exact right_ne_left hN hp

end Ordered

/-- The invariant: the forks are shared out and taken in order, until somebody
can eat. -/
def Sound (N : Nat) (d : DiningTable) : Prop := d.Fed ∨ d.Consistent N ∧ d.Ordered

theorem Sound.step (hSound : d.Sound N) (hN : 2 ≤ N) {action : Action}
    (hStep : d.step action = some d') : d'.Sound N := by
  by_cases hFed : d.Fed
  · exact Or.inl (hFed.step hStep)
  obtain ⟨hc, ho⟩ := hSound.resolve_left hFed
  refine Or.inr ⟨hc.step hN (nobodyEats_of_hungry hFed hStep) hStep, ?_⟩
  cases action with
  | receive =>
      simp only [DiningTable.step] at hStep
      split at hStep
      · cases hStep
      · rename_i msg rest hInbox
        obtain rfl := Option.some.inj hStep
        exact ho.receive hc hInbox
  | drain p =>
      obtain ⟨hReady, rfl⟩ := of_ite_eq_some hStep
      exact ho.drain p
  | turn p =>
      obtain ⟨hReady, rfl⟩ := of_ite_eq_some hStep
      exact ho.turn hc hN hFed (hc.seats ▸ hReady.1)

theorem construct_ordered (N : Nat) : (construct N).Ordered := by
  constructor
  · intro p hp
    refine ⟨fun hGrant => absurd hGrant List.not_mem_nil, fun hHeld => ?_⟩
    unfold Philosopher.second at hHeld
    split_ifs at hHeld
    · cases hHeld
    · cases hHeld
  · intro p hp hRequest
    exact absurd hRequest List.not_mem_nil

namespace Quiet

variable (hq : d.Quiet) (hc : d.Consistent N)
include hq hc

/-- In a quiet state a fork that nobody holds is available. -/
theorem available {fork : Nat} (hFork : fork < N)
    (hFree : ∀ p < N, (d.philosophers.get p).held fork = 0) :
    d.chopsticks_state.get fork = true := by
  have hSeats : d.philosophers.total (·.places fork) = 0 := by
    apply Vec.total_eq_zero
    intro p hp
    have hNone : (d.philosophers.get p).messages = [] := by
      rw [List.eq_nil_iff_forall_not_mem]
      intro msg hMsg
      obtain ⟨f, _, rfl⟩ := (hc.seated p (hc.seats ▸ hp)).inbox msg hMsg
      exact absurd (hq.seats p hp _ hMsg) Bool.false_ne_true
    simp only [Philosopher.places, Philosopher.granted, hNone, List.map_nil, List.sum_nil,
      hFree p (hc.seats ▸ hp)]
  have hTable : (d.messages.map (·.releases fork)).sum = 0 := by
    rw [List.sum_eq_zero_iff_forall_eq_nat]
    intro n hn
    obtain ⟨msg, hMsg, rfl⟩ := List.mem_map.mp hn
    obtain ⟨f, philo, _, _, rfl⟩ := hc.requests msg hMsg
    rfl
  have hOne := hc.onePlace fork hFork
  rw [places, hSeats, hTable] at hOne
  cases hState : d.chopsticks_state.get fork with
  | true => rfl
  | false =>
      rw [hState] at hOne
      cases hOne

end Quiet

section Hungry

variable (hc : d.Consistent N) (ho : d.Ordered) (hHungry : ¬d.Fed)
include hc ho hHungry

/-- A philosopher that is not done holds its first fork at most. -/
theorem second_free {p : Nat} (hp : p < N) : ¬(d.philosophers.get p).second.is_acquired := by
  have hSeat : p < d.philosophers.size := hc.seats.symm ▸ hp
  intro hSecond
  apply hHungry
  refine ⟨p, hSeat, ?_⟩
  rw [Philosopher.hasBoth_eq, Bool.and_eq_true]
  exact ⟨(ho.seats p hSeat).held hSecond, hSecond⟩

theorem even_of_held {p fork : Nat} (hp : p < N) (hHeld : (d.philosophers.get p).held fork ≠ 0) :
    fork % 2 = 0 := by
  have hs := hc.seated p hp
  have hSecond := second_free hc ho hHungry hp
  rw [Philosopher.second, hs.left_id] at hSecond
  rcases Philosopher.side_of_held hs hHeld with ⟨hLeft, rfl⟩ | ⟨hRight, rfl⟩
  · by_contra hOdd
    rw [if_neg hOdd] at hSecond
    exact hSecond hLeft
  · have hOdd : ¬p % 2 = 0 := by
      intro hEven
      rw [if_pos hEven] at hSecond
      exact hSecond hRight
    by_cases hLast : p + 1 = N
    · rw [hLast, Nat.mod_self]
    · rw [Nat.mod_eq_of_lt (show p + 1 < N by omega)]
      omega

theorem Quiet.odd_available (hq : d.Quiet) {fork : Nat} (hFork : fork < N) (hOdd : ¬fork % 2 = 0) :
    d.chopsticks_state.get fork = true := by
  apply hq.available hc hFork
  intro p hp
  by_contra hHeld
  exact hOdd (even_of_held hc ho hHungry hp hHeld)

/-- Philosopher 0 asks for fork 1 or for fork 0, and only the last philosopher
can hold fork 0 instead. That one sits at an odd place then, and asks for the
fork of its own number. -/
theorem Quiet.progress (hq : d.Quiet) (hN : 2 ≤ N) :
    ∃ p < N, d.chopsticks_state.get (d.philosophers.get p).requested = true := by
  have hs := hc.seated 0 (by omega)
  have hRightId : (d.philosophers.get 0).right.chop_id = 1 := by
    rw [hs.right_id, Nat.mod_eq_of_lt (by omega)]
  by_cases hLeft : (d.philosophers.get 0).left.is_acquired
  · refine ⟨0, by omega, ?_⟩
    rw [Philosopher.requested_of_left hLeft, hRightId]
    exact hq.odd_available hc ho hHungry (by omega) (by decide)
  have hRequest : (d.philosophers.get 0).requested = 0 := by
    rw [Philosopher.requested_of_even hLeft (by rw [hs.left_id]), hs.left_id]
  by_cases hFree : d.chopsticks_state.get 0 = true
  · exact ⟨0, by omega, by rw [hRequest]; exact hFree⟩
  have hHolder : ∃ p < N, (d.philosophers.get p).held 0 ≠ 0 := by
    by_contra hNobody
    push Not at hNobody
    exact hFree (hq.available hc (by omega) hNobody)
  obtain ⟨p, hp, hHeld⟩ := hHolder
  have hsp := hc.seated p hp
  have hSecond := second_free hc ho hHungry hp
  rw [Philosopher.second, hsp.left_id] at hSecond
  rcases Philosopher.side_of_held hsp hHeld with ⟨hOwn, rfl⟩ | ⟨hRight, hWrap⟩
  · exact absurd hOwn hLeft
  · have hOdd : ¬p % 2 = 0 := by
      intro hEven
      rw [if_pos hEven] at hSecond
      exact hSecond hRight
    rw [if_neg hOdd] at hSecond
    refine ⟨p, hp, ?_⟩
    rw [Philosopher.requested_of_right hSecond hRight, hsp.left_id]
    exact hq.odd_available hc ho hHungry hp hOdd

end Hungry

/-- In every interleaving somebody can go on. -/
theorem always_progresses (N : Nat) (hN : 2 ≤ N) (actions : List Action) :
    Always step Progresses (construct N) actions := by
  have hSound : Always step (Sound N) (construct N) actions := by
    have hStart : (construct N).Sound N := Or.inr ⟨construct_consistent N, construct_ordered N⟩
    exact always_of_invariant (fun _ _ _ h hStep => h.step hN hStep) actions hStart
  apply hSound.mono
  intro d h hQuiet
  by_cases hFed : d.Fed
  · exact Or.inl hFed
  · obtain ⟨hc, ho⟩ := h.resolve_left hFed
    obtain ⟨p, hp, hAvailable⟩ := hQuiet.progress hc ho hFed hN
    exact Or.inr ⟨p, hc.seats.symm ▸ hp, hAvailable⟩

theorem always_progresses_five :
    Always step Progresses (construct 5) bothGranted :=
  always_progresses 5 (by decide) bothGranted

end DiningTable
end CppPerf.Actors
