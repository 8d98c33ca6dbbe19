import CppPerf.Semantics.Run
import CppPerf.Semantics.Vec

/-! `thread_pool` of `TaskWaiting.cpp`, once its threads are started. The test
of `stop_token` and each section under the mutex is one step, and so is every
return of a task. A notification, and a wake-up without one, is a step too. -/
namespace CppPerf.Pool

open Indexed

inductive Task (T : Type*) where
  | job (t : T)
  /-- The empty task of the destructor. -/
  | stop

/-- Where a worker stands: before the test of `stop_token`, before the lock in
`get_task`, blocked in `cv.wait`, woken up in it, running a task, at its end. -/
inductive Worker (T : Type*) where
  | testing
  | entering
  | blocked
  | woken
  | running (task : Task T)
  | exited

namespace Worker

variable {T : Type*}

def isBlocked : Worker T → Bool
  | .blocked => true
  | .testing => false
  | .entering => false
  | .woken => false
  | .running _ => false
  | .exited => false

def isExited : Worker T → Bool
  | .exited => true
  | .testing => false
  | .entering => false
  | .blocked => false
  | .woken => false
  | .running _ => false

/-- The task in its hands may call `submit`. The empty task does not. -/
def runsJob : Worker T → Bool
  | .running (.job _) => true
  | .running .stop => false
  | .testing => false
  | .entering => false
  | .blocked => false
  | .woken => false
  | .exited => false

/-- What `notify_all` does to a worker. -/
def notified (w : Worker T) : Worker T := if w.isBlocked then .woken else w

end Worker

/-- Where the destructor stands: not called, before it pushes the empty tasks,
before it notifies, before it joins the given thread. -/
inductive Destructor where
  | idle
  | stopping
  | pushed
  | joining (th : Nat)

/-- `signals` are the calls of `submit` that have pushed their task and not
notified yet. `pushed` and `popped` are the histories of the queue. -/
structure ThreadPool (T : Type*) where
  stop_token : Bool
  pool : Vec (Worker T)
  tasks : List (Task T)
  destructor : Destructor
  signals : Nat
  pushed : List (Task T)
  popped : List (Task T)

namespace ThreadPool

variable {T : Type*}

inductive Action (T : Type*) where
  /-- The owner of the pool calls `submit`. -/
  | submit (t : T)
  /-- The task that the worker runs calls `submit`. -/
  | submitFrom (p : Nat) (t : T)
  /-- A call of `submit` notifies one blocked worker, if there is one. -/
  | notifyOne (p : Option Nat)
  /-- A worker wakes up without being notified. -/
  | wake (p : Nat)
  /-- The next step of the worker. -/
  | work (p : Nat)
  /-- The next step of the destructor. -/
  | destroy

def construct (num : Nat) : ThreadPool T where
  stop_token := false
  pool := ⟨num, fun _ => .testing⟩
  tasks := []
  destructor := .idle
  signals := 0
  pushed := []
  popped := []

def push (s : ThreadPool T) (tasks : List (Task T)) : ThreadPool T :=
  { s with tasks := s.tasks ++ tasks, pushed := s.pushed ++ tasks }

def submit (s : ThreadPool T) (t : T) : ThreadPool T :=
  { s.push [.job t] with signals := s.signals + 1 }

def setWorker (s : ThreadPool T) (p : Nat) (w : Worker T) : ThreadPool T :=
  { s with pool := s.pool.set p w }

/-- The test in `cv.wait`, and what follows it. -/
def getTask (s : ThreadPool T) (p : Nat) : ThreadPool T :=
  match s.tasks with
  | [] => s.setWorker p .blocked
  | task :: tasks =>
      { s.setWorker p (.running task) with tasks := tasks, popped := s.popped ++ [task] }

def work (s : ThreadPool T) (p : Nat) : Option (ThreadPool T) :=
  match s.pool.get p with
  | .testing => some (s.setWorker p (if s.stop_token then .exited else .entering))
  | .entering => some (s.getTask p)
  | .woken => some (s.getTask p)
  | .running _ => some (s.setWorker p .testing)
  | .blocked => none
  | .exited => none

def wake (s : ThreadPool T) (p : Nat) : Option (ThreadPool T) :=
  if (s.pool.get p).isBlocked then some (s.setWorker p .woken) else none

def destroy (s : ThreadPool T) : Option (ThreadPool T) :=
  match s.destructor with
  | .idle => some { s with stop_token := true, destructor := .stopping }
  | .stopping => some { s.push (List.replicate s.pool.size .stop) with destructor := .pushed }
  | .pushed => some { s with pool := s.pool.map Worker.notified, destructor := .joining 0 }
  | .joining th =>
      if th < s.pool.size ∧ (s.pool.get th).isExited then
        some { s with destructor := .joining (th + 1) }
      else none

def step (s : ThreadPool T) : Action T → Option (ThreadPool T)
  | .submit t =>
      match s.destructor with
      | .idle => some (s.submit t)
      | .stopping => none
      | .pushed => none
      | .joining _ => none
  | .submitFrom p t =>
      if p < s.pool.size ∧ (s.pool.get p).runsJob then some (s.submit t) else none
  | .notifyOne p =>
      if s.signals = 0 then none
      else
        match p with
        | none =>
            if s.pool.count Worker.isBlocked = 0 then some { s with signals := s.signals - 1 }
            else none
        | some q =>
            if q < s.pool.size then { s with signals := s.signals - 1 }.wake q else none
  | .wake p => if p < s.pool.size then s.wake p else none
  | .work p => if p < s.pool.size then s.work p else none
  | .destroy => s.destroy

end ThreadPool

/-! The pool shuts down in every interleaving. A worker that has seen the stop
flag unset takes one more task, and the destructor has pushed a task for each
worker, so no worker that still wants a task ever finds the queue empty. -/

open Transition

variable {T : Type*}

/-- The worker waits in `get_task`, or is going to call it. -/
def Worker.awaits : Worker T → Bool
  | .entering => true
  | .blocked => true
  | .woken => true
  | .testing => false
  | .running _ => false
  | .exited => false

theorem Worker.awaits_notified (w : Worker T) : w.notified.awaits = w.awaits := by
  cases w <;> rfl

theorem Worker.isBlocked_notified (w : Worker T) : w.notified.isBlocked = false := by
  cases w <;> rfl

/-- The empty tasks have been pushed. -/
def Destructor.hasPushed : Destructor → Bool
  | .idle => false
  | .stopping => false
  | .pushed => true
  | .joining _ => true

def Destructor.joins : Destructor → Bool
  | .idle => false
  | .stopping => false
  | .pushed => false
  | .joining _ => true

theorem Destructor.hasPushed_of_joins {d : Destructor} (h : d.joins) : d.hasPushed := by
  cases d with
  | joining th => rfl
  | idle => cases h
  | stopping => cases h
  | pushed => cases h

theorem Destructor.ne_idle_of_hasPushed {d : Destructor} (h : d.hasPushed) : d ≠ .idle := by
  rintro rfl
  cases h

namespace ThreadPool

structure ShutsDown (s : ThreadPool T) : Prop where
  fifo : s.popped <+: s.pushed
  enough : s.destructor.hasPushed → s.pool.count Worker.awaits ≤ s.tasks.length
  noneWaits : s.destructor.joins → ∀ p < s.pool.size, (s.pool.get p).isBlocked = false
  live : s.destructor.joins → ∀ p < s.pool.size, (s.pool.get p).isExited = false →
    (s.step (.work p)).isSome

structure Consistent (s : ThreadPool T) : Prop where
  pushed_eq : s.pushed = s.popped ++ s.tasks
  stopped : s.destructor ≠ .idle → s.stop_token = true
  enough : s.destructor.hasPushed → s.pool.count Worker.awaits ≤ s.tasks.length
  noneWaits : s.destructor.joins → ∀ p < s.pool.size, (s.pool.get p).isBlocked = false

variable {s t : ThreadPool T} {p : Nat}

theorem work_isSome (hBlocked : (s.pool.get p).isBlocked = false)
    (hExited : (s.pool.get p).isExited = false) : (s.work p).isSome := by
  unfold work
  cases hWorker : s.pool.get p with
  | testing => rfl
  | entering => rfl
  | woken => rfl
  | running task => rfl
  | blocked =>
      rw [hWorker] at hBlocked
      cases hBlocked
  | exited =>
      rw [hWorker] at hExited
      cases hExited

namespace Consistent

theorem shutsDown (hc : s.Consistent) : s.ShutsDown where
  fifo := ⟨s.tasks, hc.pushed_eq.symm⟩
  enough := hc.enough
  noneWaits := hc.noneWaits
  live := by
    intro hJoins p hp hExited
    simp only [ThreadPool.step, if_pos hp]
    exact work_isSome (hc.noneWaits hJoins p hp) hExited

theorem push (hc : s.Consistent) (tasks : List (Task T)) : (s.push tasks).Consistent := by
  refine ⟨?_, hc.stopped, ?_, hc.noneWaits⟩
  · simp only [ThreadPool.push, hc.pushed_eq, List.append_assoc]
  · intro hPushed
    have hEnough := hc.enough hPushed
    simp only [ThreadPool.push, List.length_append]
    omega

theorem submit (hc : s.Consistent) (t : T) : (s.submit t).Consistent :=
  ⟨(hc.push _).pushed_eq, hc.stopped, (hc.push _).enough, hc.noneWaits⟩

/-- A worker that does not come to wait for a task. -/
theorem setWorker (hc : s.Consistent) (hp : p < s.pool.size) {w : Worker T}
    (hAwaits : s.destructor.hasPushed → w.awaits → (s.pool.get p).awaits)
    (hBlocked : w.isBlocked = false) : (s.setWorker p w).Consistent := by
  refine ⟨hc.pushed_eq, hc.stopped, ?_, ?_⟩
  · intro hPushed
    have hEnough := hc.enough hPushed
    have hCount := s.pool.count_set Worker.awaits p w hp
    have hLess : w.awaits.toNat ≤ (s.pool.get p).awaits.toNat := by
      cases hWorker : w.awaits with
      | false => exact Nat.zero_le _
      | true => rw [hAwaits hPushed hWorker]
    simp only [ThreadPool.setWorker]
    omega
  · intro hJoins q hq
    simp only [ThreadPool.setWorker, Vec.get_set]
    split_ifs with hSame
    · exact hBlocked
    · exact hc.noneWaits hJoins q hq

/-- A worker that waits for a task finds one once the empty tasks are there. -/
theorem getTask (hc : s.Consistent) (hp : p < s.pool.size) (hAwaits : (s.pool.get p).awaits) :
    (s.getTask p).Consistent := by
  have hCount : ∀ w : Worker T,
      (s.pool.set p w).count Worker.awaits + 1 = s.pool.count Worker.awaits + w.awaits.toNat := by
    intro w
    have hSet := s.pool.count_set Worker.awaits p w hp
    rwa [hAwaits, Bool.toNat_true] at hSet
  have hOther : s.destructor.joins → ∀ w : Worker T, w.isBlocked = false →
      ∀ q < s.pool.size, ((s.pool.set p w).get q).isBlocked = false := by
    intro hJoins w hBlocked q hq
    rw [Vec.get_set]
    split_ifs with hSame
    · exact hBlocked
    · exact hc.noneWaits hJoins q hq
  unfold ThreadPool.getTask
  cases hTasks : s.tasks with
  | nil =>
      have hBefore : ¬s.destructor.hasPushed := by
        intro hPushed
        have hEnough := hc.enough hPushed
        have hLeft : (s.pool.set p .exited).count Worker.awaits + 1 =
            s.pool.count Worker.awaits := hCount .exited
        rw [hTasks, List.length_nil] at hEnough
        omega
      refine ⟨hc.pushed_eq, hc.stopped, fun hPushed => absurd hPushed hBefore, fun hJoins => ?_⟩
      exact absurd (Destructor.hasPushed_of_joins hJoins) hBefore
  | cons task tasks =>
      refine ⟨?_, hc.stopped, ?_, fun hJoins => hOther hJoins _ rfl⟩
      · simp only [ThreadPool.setWorker, hc.pushed_eq, hTasks, List.append_assoc,
          List.singleton_append]
      · intro hPushed
        have hEnough := hc.enough hPushed
        have hLeft : (s.pool.set p (.running task)).count Worker.awaits + 1 =
            s.pool.count Worker.awaits := hCount (.running task)
        rw [hTasks, List.length_cons] at hEnough
        simp only [ThreadPool.setWorker]
        omega

theorem work (hc : s.Consistent) (hp : p < s.pool.size) (hWork : s.work p = some t) :
    t.Consistent := by
  unfold ThreadPool.work at hWork
  cases hWorker : s.pool.get p with
  | testing =>
      rw [hWorker] at hWork
      obtain rfl := Option.some.inj hWork
      cases hToken : s.stop_token with
      | true => exact hc.setWorker hp (fun _ hAwaits => absurd hAwaits Bool.false_ne_true) rfl
      | false =>
          -- The flag is set before the empty tasks are pushed.
          apply hc.setWorker hp _ rfl
          intro hPushed
          rw [hc.stopped (Destructor.ne_idle_of_hasPushed hPushed)] at hToken
          cases hToken
  | entering =>
      rw [hWorker] at hWork
      obtain rfl := Option.some.inj hWork
      exact hc.getTask hp (by rw [hWorker]; rfl)
  | woken =>
      rw [hWorker] at hWork
      obtain rfl := Option.some.inj hWork
      exact hc.getTask hp (by rw [hWorker]; rfl)
  | running task =>
      rw [hWorker] at hWork
      obtain rfl := Option.some.inj hWork
      exact hc.setWorker hp (fun _ hAwaits => absurd hAwaits Bool.false_ne_true) rfl
  | blocked =>
      rw [hWorker] at hWork
      cases hWork
  | exited =>
      rw [hWorker] at hWork
      cases hWork

theorem wake (hc : s.Consistent) (hp : p < s.pool.size) (hWake : s.wake p = some t) :
    t.Consistent := by
  unfold ThreadPool.wake at hWake
  split_ifs at hWake with hBlocked
  obtain rfl := Option.some.inj hWake
  apply hc.setWorker hp _ rfl
  intro _ _
  cases hWorker : s.pool.get p with
  | blocked => rfl
  | testing | entering | woken | running task | exited =>
      rw [hWorker] at hBlocked
      cases hBlocked

theorem destroy (hc : s.Consistent) (hDestroy : s.destroy = some t) : t.Consistent := by
  unfold ThreadPool.destroy at hDestroy
  cases hPhase : s.destructor with
  | idle =>
      rw [hPhase] at hDestroy
      obtain rfl := Option.some.inj hDestroy
      exact ⟨hc.pushed_eq, fun _ => rfl, fun hPushed => absurd hPushed Bool.false_ne_true,
        fun hJoins => absurd hJoins Bool.false_ne_true⟩
  | stopping =>
      rw [hPhase] at hDestroy
      obtain rfl := Option.some.inj hDestroy
      have hStopped := hc.stopped (by rw [hPhase]; exact Destructor.noConfusion)
      refine ⟨(hc.push _).pushed_eq, fun _ => hStopped, fun _ => ?_,
        fun hJoins => absurd hJoins Bool.false_ne_true⟩
      have hAtMost := s.pool.count_le_size Worker.awaits
      simp only [ThreadPool.push, List.length_append, List.length_replicate]
      omega
  | pushed =>
      rw [hPhase] at hDestroy
      obtain rfl := Option.some.inj hDestroy
      have hEnough := hc.enough (by rw [hPhase]; rfl)
      have hStopped := hc.stopped (by rw [hPhase]; exact Destructor.noConfusion)
      refine ⟨hc.pushed_eq, fun _ => hStopped, fun _ => ?_, fun _ q hq => ?_⟩
      · rwa [Vec.count_map _ _ Worker.awaits_notified]
      · exact Worker.isBlocked_notified _
  | joining th =>
      rw [hPhase] at hDestroy
      simp only at hDestroy
      split_ifs at hDestroy with hExited
      obtain rfl := Option.some.inj hDestroy
      have hEnough := hc.enough (by rw [hPhase]; rfl)
      have hStopped := hc.stopped (by rw [hPhase]; exact Destructor.noConfusion)
      have hNone := hc.noneWaits (by rw [hPhase]; rfl)
      exact ⟨hc.pushed_eq, fun _ => hStopped, fun _ => hEnough, fun _ => hNone⟩

theorem step (hc : s.Consistent) {action : Action T} (hStep : s.step action = some t) :
    t.Consistent := by
  cases action with
  | submit task =>
      simp only [ThreadPool.step] at hStep
      split at hStep
      · obtain rfl := Option.some.inj hStep
        exact hc.submit task
      · cases hStep
      · cases hStep
      · cases hStep
  | submitFrom p task =>
      obtain ⟨hRuns, rfl⟩ := of_ite_eq_some hStep
      exact hc.submit task
  | notifyOne p =>
      have hQuiet : ({ s with signals := s.signals - 1 } : ThreadPool T).Consistent :=
        ⟨hc.pushed_eq, hc.stopped, hc.enough, hc.noneWaits⟩
      cases p with
      | none =>
          simp only [ThreadPool.step] at hStep
          split_ifs at hStep with hSignals hNone
          obtain rfl := Option.some.inj hStep
          exact hQuiet
      | some q =>
          simp only [ThreadPool.step] at hStep
          split_ifs at hStep with hSignals hq
          exact hQuiet.wake hq hStep
  | wake p =>
      simp only [ThreadPool.step] at hStep
      split_ifs at hStep with hp
      exact hc.wake hp hStep
  | work p =>
      simp only [ThreadPool.step] at hStep
      split_ifs at hStep with hp
      exact hc.work hp hStep
  | destroy => exact hc.destroy hStep

end Consistent

theorem construct_consistent (num : Nat) : (construct num : ThreadPool T).Consistent :=
  ⟨rfl, fun hIdle => absurd rfl hIdle, fun hPushed => absurd hPushed Bool.false_ne_true,
    fun hJoins => absurd hJoins Bool.false_ne_true⟩

/-- In every interleaving the tasks come out in the order in which they went
in, the queue holds a task for each worker that still wants one, and none of
the workers waits when the destructor joins. -/
theorem always_shutsDown (num : Nat) (actions : List (Action T)) :
    Always step ShutsDown (construct num : ThreadPool T) actions :=
  (always_of_invariant (fun _ _ _ hc hStep => hc.step hStep) actions
    (construct_consistent num)).mono fun _ hc => hc.shutsDown

end ThreadPool
end CppPerf.Pool
