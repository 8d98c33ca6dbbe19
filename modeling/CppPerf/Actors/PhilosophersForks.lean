import CppPerf.Actors.Philosophers

/-! Where the forks are in every interleaving. The table, the inboxes and the
flags of the philosophers share each fork out once, until a philosopher eats:
from then on it counts a fork as its own that it has given back. -/
namespace CppPerf.Actors

open Indexed Transition

namespace ActorMessages

/-- How often the message grants the fork. -/
def grants (fork : Nat) : ActorMessages → Nat
  | .forkResponse f granted => (granted && f == fork).toNat
  | .forkRequest _ _ => 0
  | .forkRelease _ _ => 0

/-- How often the message names the fork as given back. -/
def releases (fork : Nat) : ActorMessages → Nat
  | .forkRelease fork1 fork2 => (fork1 == fork).toNat + (fork2 == fork).toNat
  | .forkRequest _ _ => 0
  | .forkResponse _ _ => 0

@[simp] theorem grants_forkResponse (fork f : Nat) :
    (forkResponse f true).grants fork = (f == fork).toNat := rfl

@[simp] theorem releases_forkRequest (fork f p : Nat) : (forkRequest f p).releases fork = 0 := rfl

@[simp] theorem releases_forkRelease (fork fork1 fork2 : Nat) :
    (forkRelease fork1 fork2).releases fork = (fork1 == fork).toNat + (fork2 == fork).toNat := rfl

end ActorMessages

def ChopstickState.holds (c : ChopstickState) (fork : Nat) : Nat :=
  (c.is_acquired && c.chop_id == fork).toNat

/-- The forks on the two sides of a seat. -/
def Beside (N p fork : Nat) : Prop := fork = p ∨ fork = (p + 1) % N

theorem Beside.lt {N p fork : Nat} (h : Beside N p fork) (hp : p < N) : fork < N := by
  rcases h with rfl | rfl
  · exact hp
  · exact Nat.mod_lt _ (by omega)

theorem right_ne_left {N p : Nat} (hN : 2 ≤ N) (hp : p < N) : (p + 1) % N ≠ p := by
  by_cases hLast : p + 1 = N
  · rw [hLast, Nat.mod_self]
    omega
  · rw [Nat.mod_eq_of_lt (by omega)]
    omega

namespace Philosopher

def granted (ph : Philosopher) (fork : Nat) : Nat := (ph.messages.map (·.grants fork)).sum

def held (ph : Philosopher) (fork : Nat) : Nat := ph.left.holds fork + ph.right.holds fork

/-- How often the fork is in the hands or the inbox of the philosopher. -/
def places (ph : Philosopher) (fork : Nat) : Nat := ph.granted fork + ph.held fork

/-- The philosopher sits at `p`, only its own forks are granted to it, and it
has earned its meals. -/
structure Seated (N p : Nat) (ph : Philosopher) : Prop where
  left_id : ph.left.chop_id = p
  right_id : ph.right.chop_id = (p + 1) % N
  inbox : ∀ msg ∈ ph.messages, ∃ fork, Beside N p fork ∧ msg = .forkResponse fork true
  earned : ph.unearned = false

variable {N p : Nat} {ph : Philosopher} {msg : ActorMessages} {rest : List ActorMessages}

theorem granted_cons (hInbox : ph.messages = msg :: rest) (f : Nat) :
    ph.granted f = msg.grants f + (rest.map (·.grants f)).sum := by
  rw [granted, hInbox, List.map_cons, List.sum_cons]

theorem places_enqueue (ph : Philosopher) (msg : ActorMessages) (f : Nat) :
    (ph.enqueue msg).places f = ph.places f + msg.grants f := by
  simp only [places, granted, held, enqueue, List.map_append, List.map_cons, List.map_nil,
    List.sum_append, List.sum_cons, List.sum_nil]
  omega

theorem turn_of_not_hasBoth (h : ¬ph.hasBoth) :
    ph.turn = ({ ph with drained := false }, .forkRequest ph.requested ph.left.chop_id) :=
  if_neg h

theorem turn_of_hasBoth (h : ph.hasBoth) : ph.turn = eat { ph with drained := false } := if_pos h

theorem requested_beside (hs : ph.Seated N p) : Beside N p ph.requested := by
  have hChoice : ph.requested = ph.right.chop_id ∨ ph.requested = ph.left.chop_id :=
    ite_eq_or_eq _ _ _
  rw [hs.left_id, hs.right_id] at hChoice
  exact hChoice.symm

theorem construct_seated (N p : Nat) : (construct p N).Seated N p where
  left_id := rfl
  right_id := rfl
  inbox := by simp [construct]
  earned := rfl

theorem enqueue_seated (hs : ph.Seated N p) {fork : Nat} (hBeside : Beside N p fork) :
    (ph.enqueue (.forkResponse fork true)).Seated N p := by
  refine ⟨hs.left_id, hs.right_id, ?_, hs.earned⟩
  intro m hm
  simp only [enqueue, List.mem_append, List.mem_singleton] at hm
  rcases hm with hOld | rfl
  · exact hs.inbox m hOld
  · exact ⟨fork, hBeside, rfl⟩

theorem receive_seated (hs : ph.Seated N p) (hInbox : ph.messages = msg :: rest) :
    ({ ph.receive msg with messages := rest } : Philosopher).Seated N p := by
  obtain ⟨fork, hBeside, rfl⟩ := hs.inbox msg (by simp [hInbox])
  have hRest : ∀ m ∈ rest, ∃ f, Beside N p f ∧ m = .forkResponse f true := by
    intro m hm
    exact hs.inbox m (by simp [hInbox, hm])
  simp only [receive, Bool.not_true, Bool.false_eq_true, ↓reduceIte]
  split_ifs with hLeft hRight
  · exact ⟨hs.left_id, hs.right_id, hRest, hs.earned⟩
  · exact ⟨hs.left_id, hs.right_id, hRest, hs.earned⟩
  · exact ⟨hs.left_id, hs.right_id, hRest, hs.earned⟩

/-- A granted fork moves from the inbox into the hands of the philosopher. -/
theorem receive_places (hs : ph.Seated N p) (hN : 2 ≤ N) (hp : p < N)
    (hInbox : ph.messages = msg :: rest) (hOnce : ∀ fork < N, ph.places fork ≤ 1) (f : Nat) :
    ({ ph.receive msg with messages := rest } : Philosopher).places f = ph.places f := by
  obtain ⟨fork, hBeside, rfl⟩ := hs.inbox msg (by simp [hInbox])
  have hNe := right_ne_left hN hp
  -- The fork is in the inbox, so it is not held yet.
  have hFree : ph.held fork = 0 := by
    have hOne := hOnce fork (hBeside.lt hp)
    rw [places, granted_cons hInbox, ActorMessages.grants_forkResponse, beq_self_eq_true,
      Bool.toNat_true] at hOne
    omega
  rw [places, places, granted_cons hInbox, ActorMessages.grants_forkResponse]
  simp only [granted, held, ChopstickState.holds] at hFree ⊢
  rcases hBeside with rfl | rfl
  · simp only [receive, hs.left_id, beq_self_eq_true, Bool.not_true, Bool.false_eq_true, ↓reduceIte,
      Bool.true_and, Bool.and_true] at hFree ⊢
    have hAway : ph.left.is_acquired = false := by
      cases h : ph.left.is_acquired <;> simp_all
    simp only [hAway, Bool.false_and, Bool.toNat_false]
    omega
  · have hLeft : (ph.left.chop_id == (p + 1) % N) = false := by
      rw [hs.left_id]
      exact beq_false_of_ne hNe.symm
    simp only [receive, hLeft, hs.right_id, beq_self_eq_true, Bool.not_true, Bool.false_eq_true,
      ↓reduceIte, Bool.true_and, Bool.and_true] at hFree ⊢
    have hAway : ph.right.is_acquired = false := by
      cases h : ph.right.is_acquired <;> simp_all
    simp only [hAway, Bool.false_and, Bool.toNat_false]
    omega

/-- Draining the inbox moves all its forks. -/
theorem drain_places (hN : 2 ≤ N) (hp : p < N) (msgs : List ActorMessages) (hs : ph.Seated N p)
    (hInbox : ph.messages = msgs) (hOnce : ∀ fork < N, ph.places fork ≤ 1) :
    (ph.drain msgs).Seated N p ∧ ∀ f, (ph.drain msgs).places f = ph.places f := by
  induction msgs generalizing ph with
  | nil =>
      refine ⟨⟨hs.left_id, hs.right_id, by simp [drain], hs.earned⟩, fun f => ?_⟩
      simp [drain, places, granted, held, hInbox]
  | cons msg rest ih =>
      have hPlaces := receive_places hs hN hp hInbox hOnce
      have hRest := ih (receive_seated hs hInbox) rfl (by simpa only [hPlaces] using hOnce)
      simp only [drain]
      exact ⟨hRest.1, fun f => (hRest.2 f).trans (hPlaces f)⟩

end Philosopher

namespace DiningTable

/-- The number of places where the fork is: available, granted in an inbox,
held, or given back in a message to the table. -/
def places (d : DiningTable) (fork : Nat) : Nat :=
  (d.chopsticks_state.get fork).toNat + d.philosophers.total (·.places fork) +
    (d.messages.map (·.releases fork)).sum

structure Exclusive (d : DiningTable) : Prop where
  onePlace : ∀ fork < d.philosophers.size, d.places fork = 1
  earned : ∀ p < d.philosophers.size, (d.philosophers.get p).unearned = false
  apart : ∀ p < d.philosophers.size, ∀ q < d.philosophers.size, p ≠ q →
    ∀ fork < d.philosophers.size,
      (d.philosophers.get p).held fork = 0 ∨ (d.philosophers.get q).held fork = 0

/-- It is not the turn of a philosopher that has both forks. -/
def NobodyEats (d : DiningTable) : Action → Prop
  | .turn p => ¬(d.philosophers.get p).hasBoth
  | .receive => True
  | .drain _ => True

/-- The invariant. As long as nobody eats, the table is sent requests only. -/
structure Consistent (N : Nat) (d : DiningTable) : Prop where
  seats : d.philosophers.size = N
  seated : ∀ p < N, (d.philosophers.get p).Seated N p
  requests : ∀ msg ∈ d.messages, ∃ fork philo, philo < N ∧ Beside N philo fork ∧
    msg = .forkRequest fork philo
  onePlace : ∀ fork < N, d.places fork = 1

variable {N : Nat} {d d' : DiningTable}

/-- Replacing one philosopher. -/
theorem total_set (d : DiningTable) {p : Nat} (hp : p < d.philosophers.size) (ph : Philosopher)
    (fork : Nat) :
    (d.philosophers.set p ph).total (·.places fork) + (d.philosophers.get p).places fork =
      d.philosophers.total (·.places fork) + ph.places fork :=
  d.philosophers.total_set (·.places fork) p ph hp

theorem total_set_of_places_eq (d : DiningTable) {p : Nat} (hp : p < d.philosophers.size)
    {ph : Philosopher} {fork : Nat} (h : ph.places fork = (d.philosophers.get p).places fork) :
    (d.philosophers.set p ph).total (·.places fork) = d.philosophers.total (·.places fork) := by
  have hMove := d.total_set hp ph fork
  omega

namespace Consistent

theorem exclusive (hc : d.Consistent N) : d.Exclusive where
  onePlace := by
    rw [hc.seats]
    exact hc.onePlace
  earned := by
    rw [hc.seats]
    exact fun p hp => (hc.seated p hp).earned
  apart := by
    intro p hp q hq hNe fork hFork
    have hOne := hc.onePlace fork (hc.seats ▸ hFork)
    have hTwo := d.philosophers.add_le_total (·.places fork) hp hq hNe
    simp only [Philosopher.places] at hTwo
    simp only [DiningTable.places, Philosopher.places] at hOne
    omega

/-- A philosopher accounts for a fork at most once. -/
theorem places_le (hc : d.Consistent N) {p fork : Nat} (hp : p < N) (hFork : fork < N) :
    (d.philosophers.get p).places fork ≤ 1 := by
  have hOne := hc.onePlace fork hFork
  have hCell := d.philosophers.get_le_total (·.places fork) (hc.seats.symm ▸ hp)
  simp only [DiningTable.places] at hOne
  omega

theorem receive (hc : d.Consistent N) {msg : ActorMessages} {rest : List ActorMessages}
    (hInbox : d.messages = msg :: rest) :
    ({ d.receive msg with messages := rest } : DiningTable).Consistent N := by
  obtain ⟨fork, philo, hPhilo, hBeside, rfl⟩ := hc.requests msg (by simp [hInbox])
  have hSeat : philo < d.philosophers.size := hc.seats.symm ▸ hPhilo
  have hRest : ∀ m ∈ rest, ∃ f q, q < N ∧ Beside N q f ∧ m = .forkRequest f q := by
    intro m hm
    exact hc.requests m (by simp [hInbox, hm])
  have hOne := hc.onePlace
  simp only [DiningTable.places, hInbox, List.map_cons, List.sum_cons,
    ActorMessages.releases_forkRequest, Nat.zero_add] at hOne
  simp only [DiningTable.receive]
  split_ifs with hTaken
  · exact ⟨hc.seats, hc.seated, hRest, hOne⟩
  · simp only [Bool.not_eq_true', Bool.not_eq_false] at hTaken
    have hs := hc.seated philo hPhilo
    refine ⟨hc.seats, ?_, hRest, ?_⟩
    · intro p hp
      simp only [send, Vec.get_set]
      split_ifs with hSame
      · subst hSame
        exact Philosopher.enqueue_seated hs hBeside
      · exact hc.seated p hp
    · -- The fork leaves the table for the inbox of the philosopher.
      intro f hf
      have hFork := hOne f hf
      have hMove := d.total_set hSeat
        ((d.philosophers.get philo).enqueue (.forkResponse fork true)) f
      rw [Philosopher.places_enqueue, ActorMessages.grants_forkResponse] at hMove
      simp only [DiningTable.places, send, Vec.get_set]
      split_ifs with hSame
      · subst hSame
        rw [hTaken, Bool.toNat_true] at hFork
        rw [beq_self_eq_true, Bool.toNat_true] at hMove
        rw [Bool.toNat_false]
        omega
      · have hOther : (fork == f) = false := beq_false_of_ne (Ne.symm hSame)
        rw [hOther, Bool.toNat_false] at hMove
        omega

/-- A philosopher may change as long as it keeps its seat and its forks. -/
theorem replace (hc : d.Consistent N) {p : Nat} (hp : p < N) (ph : Philosopher)
    (hSeated : ph.Seated N p) (hPlaces : ∀ f, ph.places f = (d.philosophers.get p).places f) :
    ({ d with philosophers := d.philosophers.set p ph } : DiningTable).Consistent N := by
  refine ⟨hc.seats, ?_, hc.requests, ?_⟩
  · intro q hq
    simp only [Vec.get_set]
    split_ifs with hSame
    · subst hSame
      exact hSeated
    · exact hc.seated q hq
  · intro fork hFork
    have hOne := hc.onePlace fork hFork
    rw [DiningTable.places] at hOne ⊢
    rw [d.total_set_of_places_eq (hc.seats.symm ▸ hp) (hPlaces fork)]
    exact hOne

/-- A request moves no fork. -/
theorem request (hc : d.Consistent N) {p fork : Nat} (hp : p < N) (hBeside : Beside N p fork) :
    ({ d with messages := d.messages ++ [.forkRequest fork p] } : DiningTable).Consistent N := by
  refine ⟨hc.seats, hc.seated, ?_, ?_⟩
  · intro msg hMsg
    simp only [List.mem_append, List.mem_singleton] at hMsg
    rcases hMsg with hOld | rfl
    · exact hc.requests msg hOld
    · exact ⟨fork, p, hp, hBeside, rfl⟩
  · intro f hf
    have hOne := hc.onePlace f hf
    simp only [DiningTable.places, List.map_append, List.map_cons, List.map_nil, List.sum_append,
      List.sum_cons, List.sum_nil, ActorMessages.releases_forkRequest] at hOne ⊢
    omega

theorem drain (hc : d.Consistent N) (hN : 2 ≤ N) {p : Nat} (hp : p < N) {ph : Philosopher}
    (hDrain : (d.philosophers.get p).drain (d.philosophers.get p).messages = ph) :
    ({ d with philosophers := d.philosophers.set p ph } : DiningTable).Consistent N := by
  obtain ⟨hSeated, hPlaces⟩ := Philosopher.drain_places hN hp _ (hc.seated p hp) rfl
    fun fork hFork => hc.places_le hp hFork
  rw [hDrain] at hSeated hPlaces
  exact hc.replace hp ph hSeated hPlaces

theorem turn (hc : d.Consistent N) {p : Nat} (hp : p < N)
    (hGuard : ¬(d.philosophers.get p).hasBoth) :
    ({ d with
        messages := d.messages ++ [(d.philosophers.get p).turn.2]
        philosophers := d.philosophers.set p (d.philosophers.get p).turn.1 } :
      DiningTable).Consistent N := by
  have hs := hc.seated p hp
  rw [Philosopher.turn_of_not_hasBoth hGuard, hs.left_id]
  have hRested := hc.replace hp { d.philosophers.get p with drained := false }
    ⟨hs.left_id, hs.right_id, hs.inbox, hs.earned⟩ fun f => rfl
  exact hRested.request hp (Philosopher.requested_beside hs)

theorem step (hc : d.Consistent N) (hN : 2 ≤ N) {action : Action} (hGuard : d.NobodyEats action)
    (hStep : d.step action = some d') : d'.Consistent N := by
  cases action with
  | receive =>
      simp only [DiningTable.step] at hStep
      split at hStep
      · cases hStep
      · rename_i msg rest hInbox
        obtain rfl := Option.some.inj hStep
        exact hc.receive hInbox
  | drain p =>
      obtain ⟨hReady, rfl⟩ := of_ite_eq_some hStep
      exact hc.drain hN (hc.seats ▸ hReady.1) rfl
  | turn p =>
      obtain ⟨hReady, rfl⟩ := of_ite_eq_some hStep
      exact hc.turn (hc.seats ▸ hReady.1) hGuard

/-- The philosopher that eats gives its left fork back and still holds it. -/
theorem not_exclusive (hc : d.Consistent N) {action : Action} (hEats : ¬d.NobodyEats action)
    (hStep : d.step action = some d') : ¬d'.Exclusive := by
  cases action with
  | receive => exact absurd trivial hEats
  | drain p => exact absurd trivial hEats
  | turn p =>
      simp only [NobodyEats, not_not] at hEats
      obtain ⟨hReady, rfl⟩ := of_ite_eq_some hStep
      have hp : p < N := hc.seats ▸ hReady.1
      have hs := hc.seated p hp
      intro hExclusive
      have hAfter := hExclusive.onePlace p hReady.1
      have hBefore := hc.onePlace p hp
      have hTurn := Philosopher.turn_of_hasBoth hEats
      have hSame := d.total_set_of_places_eq hReady.1
        (show (d.philosophers.get p).turn.1.places p = _ by rw [hTurn]; rfl)
      simp only [DiningTable.places, hSame] at hAfter hBefore
      simp only [hTurn, Philosopher.eat, List.map_append, List.map_cons, List.map_nil,
        List.sum_append, List.sum_cons, List.sum_nil, ActorMessages.releases_forkRelease,
        hs.left_id, beq_self_eq_true, Bool.toNat_true] at hAfter
      omega

end Consistent

theorem construct_consistent (N : Nat) : (construct N).Consistent N where
  seats := rfl
  seated := fun p _ => Philosopher.construct_seated N p
  requests := by simp [construct]
  onePlace := by
    intro fork hFork
    have hNone : (construct N).philosophers.total (·.places fork) = 0 := by
      apply Vec.total_eq_zero
      intro p hp
      rfl
    simp only [places, hNone]
    rfl

/-- In every interleaving each fork is in one place, and the meals are earned,
if and only if no philosopher has its turn while it has both forks. -/
theorem exclusive_iff_nobodyEats (N : Nat) (hN : 2 ≤ N) (actions : List Action)
    (hRun : (run step (construct N) actions).isSome) :
    Always step Exclusive (construct N) actions ↔
      Guarded step NobodyEats (construct N) actions := by
  obtain ⟨finish, hFinish⟩ := Option.isSome_iff_exists.mp hRun
  exact always_iff_guarded (Consistent N) (fun _ _ _ hc hGuard hStep => hc.step hN hGuard hStep)
    (fun _ hc => hc.exclusive) (fun _ _ _ hc hBad hStep => hc.not_exclusive hBad hStep)
    (construct_consistent N) hFinish

/-- Philosopher 0 is granted its left fork, then its right fork. -/
def bothGranted : List Action :=
  [.drain 0, .turn 0, .receive, .drain 0, .turn 0, .receive, .drain 0]

theorem exclusive_iff_nobodyEats_bothGranted :
    Always step Exclusive (construct 5) bothGranted ↔
      Guarded step NobodyEats (construct 5) bothGranted :=
  exclusive_iff_nobodyEats 5 (by decide) bothGranted (by decide)

/-- Philosopher 0 eats twice with the forks it was granted once. In between
the table grants fork 1 to philosopher 1, so both neighbours hold it. -/
theorem neighbours_hold_one_fork :
    ∃ d : DiningTable,
      run step (construct 5) (bothGranted ++ [.turn 0, .receive, .drain 1, .turn 1,
        .receive, .drain 1, .turn 1, .receive, .drain 1, .drain 0, .turn 0]) = some d ∧
      (d.philosophers.get 0).held 1 = 1 ∧ (d.philosophers.get 1).held 1 = 1 ∧
      (d.philosophers.get 0).unearned = true ∧ ¬d.Exclusive := by
  have hFinish : ∃ d : DiningTable,
      run step (construct 5) (bothGranted ++ [.turn 0, .receive, .drain 1, .turn 1,
        .receive, .drain 1, .turn 1, .receive, .drain 1, .drain 0, .turn 0]) = some d ∧
      d.philosophers.size = 5 ∧ (d.philosophers.get 0).held 1 = 1 ∧
      (d.philosophers.get 1).held 1 = 1 ∧ (d.philosophers.get 0).unearned = true :=
    ⟨_, rfl, rfl, rfl, rfl, rfl⟩
  obtain ⟨d, hRun, hSize, hFirst, hSecond, hUnearned⟩ := hFinish
  refine ⟨d, hRun, hFirst, hSecond, hUnearned, fun hExclusive => ?_⟩
  have hNone := hExclusive.earned 0 (by omega)
  rw [hUnearned] at hNone
  cases hNone

end DiningTable
end CppPerf.Actors
