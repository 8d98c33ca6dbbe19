import CppPerf.Semantics.Run
import CppPerf.Semantics.Vec

/-! Task chaining of `TaskWaiting.cpp`. The sections under the mutex of a task
are atomic, tasks return, and the pool runs each submitted job once, in any
order. A task is named by its place in the order of construction. -/
namespace CppPerf.Pool

open Indexed

/-- `chainedTo`, `started`, `returned` and `early` record what happened: the
task whose handle `then` was called on, how often the task was started and
returned, and whether it ever started before that other task had returned. -/
structure ChainingInternals where
  continuation : Option Nat := none
  complete : Bool := false
  chainedTo : Option Nat := none
  started : Nat := 0
  returned : Nat := 0
  early : Bool := false

namespace TaskChaining

/-- `pending` are the jobs in the pool, `running` those whose task has not
returned yet, and `finishing` those before the locked section of `run`. -/
structure System where
  tasks : Vec ChainingInternals
  pending : List Nat
  running : List Nat
  finishing : List Nat

inductive Action where
  | submitAndContinue
  /-- A call of `then` on a handle of the task. -/
  | chainNext (k : Nat)
  /-- A worker starts `run`. -/
  | start (n : Nat)
  /-- The task of the job returns. -/
  | taskReturns (n : Nat)
  /-- The locked section of `run`. -/
  | finish (n : Nat)

namespace System

def initial : System := ⟨Vec.empty {}, [], [], []⟩

def submit (s : System) (n : Nat) : System := { s with pending := s.pending ++ [n] }

def submitAndContinue (s : System) : System :=
  { s with tasks := s.tasks.push {} }.submit s.tasks.size

/-- `chain_next` on task `k` for the new task `cont`. -/
def chainNext (s : System) (k cont : Nat) : System :=
  let ti := s.tasks.get k
  if ti.complete then s.submit cont
  else { s with tasks := s.tasks.set k { ti with continuation := some cont } }

/-- The task that this one was chained to has returned. -/
def ready (s : System) (ti : ChainingInternals) : Bool :=
  match ti.chainedTo with
  | none => true
  | some k => 0 < (s.tasks.get k).returned

def start (s : System) (n : Nat) : System :=
  let ti := s.tasks.get n
  { s with
    tasks := s.tasks.set n
      { ti with started := ti.started + 1, early := ti.early || !s.ready ti }
    pending := s.pending.erase n
    running := n :: s.running }

def taskReturns (s : System) (n : Nat) : System :=
  let ti := s.tasks.get n
  { s with
    tasks := s.tasks.set n { ti with returned := ti.returned + 1 }
    running := s.running.erase n
    finishing := n :: s.finishing }

def finish (s : System) (n : Nat) : System :=
  let ti := s.tasks.get n
  let s := { s with
    tasks := s.tasks.set n { ti with complete := true }
    finishing := s.finishing.erase n }
  match ti.continuation with
  | none => s
  | some cont => s.submit cont

def step (s : System) : Action → Option System
  | .submitAndContinue => some s.submitAndContinue
  | .chainNext k =>
      if k < s.tasks.size then
        some ({ s with tasks := s.tasks.push { chainedTo := some k } }.chainNext k s.tasks.size)
      else none
  | .start n => if n ∈ s.pending then some (s.start n) else none
  | .taskReturns n => if n ∈ s.running then some (s.taskReturns n) else none
  | .finish n => if n ∈ s.finishing then some (s.finish n) else none

/-- No submitted job is pending or running. -/
def Idle (s : System) : Prop := s.pending = [] ∧ s.running = [] ∧ s.finishing = []

end System
end TaskChaining
end CppPerf.Pool

/-! Every task that is passed to `then` runs once and after the task it was
chained to, as long as nobody chains a second task to one that is not complete:
there is one place for a continuation, and the second one takes it over. -/
namespace CppPerf.Pool.TaskChaining

open Indexed Transition

namespace System

/-- The chained tasks start late enough, and once no job is left each of them
has run once. -/
structure RunsOnce (s : System) : Prop where
  ordered : ∀ n < s.tasks.size, (s.tasks.get n).early = false
  once : s.Idle → ∀ n < s.tasks.size, (s.tasks.get n).chainedTo ≠ none →
    (s.tasks.get n).started = 1 ∧ (s.tasks.get n).returned = 1

/-- `then` is not called on the handle of a task that is not complete and has
a continuation already. -/
def KeepsContinuation (s : System) : Action → Prop
  | .chainNext k => (s.tasks.get k).complete = false → (s.tasks.get k).continuation = none
  | .submitAndContinue => True
  | .start _ => True
  | .taskReturns _ => True
  | .finish _ => True

/-- The task waits for the one it was chained to. -/
def waits (s : System) (ti : ChainingInternals) : Nat :=
  match ti.chainedTo with
  | none => 0
  | some k => (!(s.tasks.get k).complete).toNat

/-- The invariant. Each task is in one place: it waits for another task, its
job is pending, running or finishing, or it is complete. -/
structure Consistent (s : System) : Prop where
  jobs : ∀ n ∈ s.pending ++ s.running ++ s.finishing, n < s.tasks.size
  earlier : ∀ n < s.tasks.size, ∀ k, (s.tasks.get n).chainedTo = some k → k < n
  slot : ∀ k < s.tasks.size, ∀ n, (s.tasks.get k).continuation = some n →
    n < s.tasks.size ∧ (s.tasks.get n).chainedTo = some k
  waiting : ∀ n < s.tasks.size, ∀ k, (s.tasks.get n).chainedTo = some k →
    (s.tasks.get k).complete = false → (s.tasks.get k).continuation = some n
  onePlace : ∀ n < s.tasks.size, s.waits (s.tasks.get n) + s.pending.count n +
    s.running.count n + s.finishing.count n + (s.tasks.get n).complete.toNat = 1
  started_eq : ∀ n < s.tasks.size, (s.tasks.get n).started =
    s.running.count n + s.finishing.count n + (s.tasks.get n).complete.toNat
  returned_eq : ∀ n < s.tasks.size, (s.tasks.get n).returned =
    s.finishing.count n + (s.tasks.get n).complete.toNat
  early_eq : ∀ n < s.tasks.size, (s.tasks.get n).early = false

variable {s t : System}

theorem waits_congr {ti ti' : ChainingInternals} (hChained : ti'.chainedTo = ti.chainedTo)
    (hComplete : ∀ k, ti.chainedTo = some k →
      (t.tasks.get k).complete = (s.tasks.get k).complete) : t.waits ti' = s.waits ti := by
  cases hTo : ti.chainedTo with
  | none =>
      rw [hTo] at hChained
      simp only [waits, hTo, hChained]
  | some k =>
      rw [hTo] at hChained
      simp only [waits, hTo, hChained, hComplete k hTo]

/-- A job that moves from one place to another is counted once. -/
theorem count_moved {places places' : List Nat} {n : Nat} (h : n ∈ places) (j : Nat) :
    (places.erase n).count j + (n :: places').count j = places.count j + places'.count j := by
  have hPos := List.count_pos_iff.mpr h
  by_cases hSame : j = n
  · rw [hSame, List.count_erase_self, List.count_cons_self]
    omega
  · rw [List.count_erase_of_ne hSame, List.count_cons_of_ne (Ne.symm hSame)]

namespace Consistent

/-- When no job is left, a task that waited would wait for an earlier one that
is not complete either. -/
theorem complete_of_idle (hc : s.Consistent) (hIdle : s.Idle) (n : Nat) (hn : n < s.tasks.size) :
    (s.tasks.get n).complete = true := by
  induction n using Nat.strong_induction_on with
  | _ n ih =>
      have hPlace := hc.onePlace n hn
      simp only [hIdle.1, hIdle.2.1, hIdle.2.2, List.count_nil, Nat.add_zero] at hPlace
      have hWaits : s.waits (s.tasks.get n) = 0 := by
        cases hChained : (s.tasks.get n).chainedTo with
        | none => simp only [waits, hChained]
        | some k =>
            have hk := hc.earlier n hn k hChained
            simp only [waits, hChained, ih k hk (by omega), Bool.not_true, Bool.toNat_false]
      rw [hWaits, Nat.zero_add] at hPlace
      cases hComplete : (s.tasks.get n).complete with
      | true => rfl
      | false =>
          rw [hComplete] at hPlace
          cases hPlace

theorem runsOnce (hc : s.Consistent) : s.RunsOnce where
  ordered := hc.early_eq
  once := by
    intro hIdle n hn _
    have hComplete := hc.complete_of_idle hIdle n hn
    have hStarted := hc.started_eq n hn
    have hReturned := hc.returned_eq n hn
    simp only [hIdle.2.1, hIdle.2.2, hComplete, List.count_nil, Bool.toNat_true,
      Nat.zero_add] at hStarted hReturned
    exact ⟨hStarted, hReturned⟩

/-- A step that changes neither the chaining nor the completion of a task. -/
theorem of_kept (hc : s.Consistent) (hSize : t.tasks.size = s.tasks.size)
    (hChained : ∀ j, (t.tasks.get j).chainedTo = (s.tasks.get j).chainedTo)
    (hSlot : ∀ j, (t.tasks.get j).continuation = (s.tasks.get j).continuation)
    (hComplete : ∀ j, (t.tasks.get j).complete = (s.tasks.get j).complete)
    (hCount : ∀ j, t.pending.count j + t.running.count j + t.finishing.count j =
      s.pending.count j + s.running.count j + s.finishing.count j)
    (hStarted : ∀ j < s.tasks.size, (t.tasks.get j).started =
      t.running.count j + t.finishing.count j + (t.tasks.get j).complete.toNat)
    (hReturned : ∀ j < s.tasks.size, (t.tasks.get j).returned =
      t.finishing.count j + (t.tasks.get j).complete.toNat)
    (hEarly : ∀ j < s.tasks.size, (t.tasks.get j).early = false) : t.Consistent where
  jobs := by
    intro n hn
    rw [hSize]
    apply hc.jobs n
    rw [← List.count_pos_iff, List.count_append, List.count_append] at hn ⊢
    have hSame := hCount n
    omega
  earlier := by
    intro n hn k hTo
    rw [hSize] at hn
    rw [hChained] at hTo
    exact hc.earlier n hn k hTo
  slot := by
    intro k hk n hNext
    rw [hSize] at hk
    rw [hSlot] at hNext
    rw [hSize, hChained]
    exact hc.slot k hk n hNext
  waiting := by
    intro n hn k hTo hOpen
    rw [hSize] at hn
    rw [hChained] at hTo
    rw [hComplete] at hOpen
    rw [hSlot]
    exact hc.waiting n hn k hTo hOpen
  onePlace := by
    intro n hn
    rw [hSize] at hn
    have hPlace := hc.onePlace n hn
    have hSame := hCount n
    rw [waits_congr (hChained n) fun k _ => hComplete k, hComplete n]
    omega
  started_eq := by
    rw [hSize]
    exact hStarted
  returned_eq := by
    rw [hSize]
    exact hReturned
  early_eq := by
    rw [hSize]
    exact hEarly

/-- A task whose job is pending waits for nobody any more. -/
theorem ready_of_pending (hc : s.Consistent) {n : Nat} (hJob : n ∈ s.pending) :
    s.ready (s.tasks.get n) := by
  have hn := hc.jobs n (by simp [hJob])
  have hPlace := hc.onePlace n hn
  have hPending := List.count_pos_iff.mpr hJob
  cases hChained : (s.tasks.get n).chainedTo with
  | none => simp only [ready, hChained]
  | some k =>
      have hk := hc.earlier n hn k hChained
      have hReturned := hc.returned_eq k (by omega)
      simp only [waits, hChained] at hPlace
      cases hComplete : (s.tasks.get k).complete with
      | true =>
          rw [hComplete, Bool.toNat_true] at hReturned
          simp only [ready, hChained, decide_eq_true_eq]
          omega
      | false =>
          rw [hComplete, Bool.not_false, Bool.toNat_true] at hPlace
          omega

theorem start (hc : s.Consistent) {n : Nat} (hJob : n ∈ s.pending) : (s.start n).Consistent := by
  have hChained : ∀ j, ((s.start n).tasks.get j).chainedTo = (s.tasks.get j).chainedTo :=
    Vec.apply_get_set (·.chainedTo) s.tasks (by rfl)
  have hSlot : ∀ j, ((s.start n).tasks.get j).continuation = (s.tasks.get j).continuation :=
    Vec.apply_get_set (·.continuation) s.tasks (by rfl)
  have hComplete : ∀ j, ((s.start n).tasks.get j).complete = (s.tasks.get j).complete :=
    Vec.apply_get_set (·.complete) s.tasks (by rfl)
  have hReturned : ∀ j, ((s.start n).tasks.get j).returned = (s.tasks.get j).returned :=
    Vec.apply_get_set (·.returned) s.tasks (by rfl)
  refine hc.of_kept rfl hChained hSlot hComplete ?_ ?_ ?_ ?_
  · intro j
    exact congrArg (· + s.finishing.count j) (count_moved hJob j)
  · intro j hj
    have hStarted := hc.started_eq j hj
    rw [hComplete]
    by_cases hSame : j = n
    · subst hSame
      simp only [System.start, Vec.get_set_self, List.count_cons_self]
      omega
    · simp only [System.start, Vec.get_set_of_ne _ _ hSame, List.count_cons_of_ne (Ne.symm hSame)]
      exact hStarted
  · intro j hj
    rw [hComplete, hReturned]
    exact hc.returned_eq j hj
  · intro j hj
    by_cases hSame : j = n
    · subst hSame
      simp only [System.start, Vec.get_set_self, hc.early_eq j hj, hc.ready_of_pending hJob,
        Bool.not_true, Bool.or_self]
    · simp only [System.start, Vec.get_set_of_ne _ _ hSame]
      exact hc.early_eq j hj

theorem taskReturns (hc : s.Consistent) {n : Nat} (hJob : n ∈ s.running) :
    (s.taskReturns n).Consistent := by
  have hChained : ∀ j, ((s.taskReturns n).tasks.get j).chainedTo = (s.tasks.get j).chainedTo :=
    Vec.apply_get_set (·.chainedTo) s.tasks (by rfl)
  have hSlot : ∀ j,
      ((s.taskReturns n).tasks.get j).continuation = (s.tasks.get j).continuation :=
    Vec.apply_get_set (·.continuation) s.tasks (by rfl)
  have hComplete : ∀ j, ((s.taskReturns n).tasks.get j).complete = (s.tasks.get j).complete :=
    Vec.apply_get_set (·.complete) s.tasks (by rfl)
  have hStarted : ∀ j, ((s.taskReturns n).tasks.get j).started = (s.tasks.get j).started :=
    Vec.apply_get_set (·.started) s.tasks (by rfl)
  have hEarly : ∀ j, ((s.taskReturns n).tasks.get j).early = (s.tasks.get j).early :=
    Vec.apply_get_set (·.early) s.tasks (by rfl)
  have hMoved : ∀ j, (s.taskReturns n).running.count j + (s.taskReturns n).finishing.count j =
      s.running.count j + s.finishing.count j := count_moved hJob
  refine hc.of_kept rfl hChained hSlot hComplete ?_ ?_ ?_ ?_
  · intro j
    have hPending : (s.taskReturns n).pending.count j = s.pending.count j := rfl
    have hSum := hMoved j
    omega
  · intro j hj
    rw [hComplete, hStarted, hMoved]
    exact hc.started_eq j hj
  · intro j hj
    have hReturned := hc.returned_eq j hj
    rw [hComplete]
    by_cases hSame : j = n
    · subst hSame
      simp only [System.taskReturns, Vec.get_set_self, List.count_cons_self]
      omega
    · simp only [System.taskReturns, Vec.get_set_of_ne _ _ hSame,
        List.count_cons_of_ne (Ne.symm hSame)]
      exact hReturned
  · intro j hj
    rw [hEarly]
    exact hc.early_eq j hj

/-- The number of a new task is not in use. -/
theorem count_fresh (hc : s.Consistent) : s.pending.count s.tasks.size = 0 ∧
    s.running.count s.tasks.size = 0 ∧ s.finishing.count s.tasks.size = 0 := by
  have hUnused : ∀ l : List Nat, (∀ n ∈ l, n ∈ s.pending ++ s.running ++ s.finishing) →
      l.count s.tasks.size = 0 := by
    intro l hl
    apply List.count_eq_zero_of_not_mem
    intro hMem
    exact Nat.lt_irrefl _ (hc.jobs _ (hl _ hMem))
  refine ⟨hUnused _ ?_, hUnused _ ?_, hUnused _ ?_⟩
  · intro n hn
    simp [hn]
  · intro n hn
    simp [hn]
  · intro n hn
    simp [hn]

/-- There is one more task, and it has a job or a place as a continuation. -/
theorem of_grown (hc : s.Consistent) {prior : Option Nat} {next : Nat → Option Nat}
    (hSize : t.tasks.size = s.tasks.size + 1)
    (hOld : ∀ j < s.tasks.size, t.tasks.get j = { s.tasks.get j with continuation := next j })
    (hNew : t.tasks.get s.tasks.size = { chainedTo := prior })
    (hPrior : ∀ k, prior = some k → k < s.tasks.size)
    (hSlot : ∀ k < s.tasks.size, ∀ n, next k = some n →
      n < s.tasks.size ∧ (s.tasks.get n).chainedTo = some k ∨ n = s.tasks.size ∧ prior = some k)
    (hKeeps : ∀ k < s.tasks.size, (s.tasks.get k).complete = false → ∀ n,
      (s.tasks.get k).continuation = some n → next k = some n)
    (hTakes : ∀ k, prior = some k → (s.tasks.get k).complete = false →
      next k = some s.tasks.size)
    (hRunning : t.running = s.running) (hFinishing : t.finishing = s.finishing)
    (hPending : ∀ n < s.tasks.size, t.pending.count n = s.pending.count n)
    (hJobs : ∀ n ∈ t.pending, n ∈ s.pending ∨ n = s.tasks.size)
    (hPlace : t.waits { chainedTo := prior } + t.pending.count s.tasks.size = 1) :
    t.Consistent := by
  obtain ⟨_, hNoneRuns, hNoneFinishes⟩ := hc.count_fresh
  constructor <;> simp only [hSize, hRunning, hFinishing]
  case jobs =>
    intro n hn
    simp only [List.mem_append, or_assoc] at hn
    have hKnown := hc.jobs n
    simp only [List.mem_append, or_assoc] at hKnown
    rcases hn with hWaits | hRest
    · rcases hJobs n hWaits with hOldJob | rfl
      · exact Nat.lt_succ_of_lt (hKnown (Or.inl hOldJob))
      · exact Nat.lt_succ_self _
    · exact Nat.lt_succ_of_lt (hKnown (Or.inr hRest))
  case earlier =>
    intro n hn k hChained
    rcases Nat.lt_succ_iff_lt_or_eq.mp hn with hLt | rfl
    · rw [hOld n hLt] at hChained
      exact hc.earlier n hLt k hChained
    · rw [hNew] at hChained
      exact hPrior k hChained
  case slot =>
    intro k hk n hNext
    rcases Nat.lt_succ_iff_lt_or_eq.mp hk with hLt | rfl
    · rw [hOld k hLt] at hNext
      rcases hSlot k hLt n hNext with ⟨hn, hBack⟩ | ⟨rfl, hBack⟩
      · rw [hOld n hn]
        exact ⟨Nat.lt_succ_of_lt hn, hBack⟩
      · rw [hNew]
        exact ⟨Nat.lt_succ_self _, hBack⟩
    · rw [hNew] at hNext
      cases hNext
  case waiting =>
    intro n hn k hChained hOpen
    rcases Nat.lt_succ_iff_lt_or_eq.mp hn with hLt | rfl
    · rw [hOld n hLt] at hChained
      have hk := (hc.earlier n hLt k hChained).trans hLt
      rw [hOld k hk] at hOpen ⊢
      exact hKeeps k hk hOpen n (hc.waiting n hLt k hChained hOpen)
    · rw [hNew] at hChained
      rw [hOld k (hPrior k hChained)] at hOpen ⊢
      exact hTakes k hChained hOpen
  case onePlace =>
    intro n hn
    rcases Nat.lt_succ_iff_lt_or_eq.mp hn with hLt | rfl
    · have hWaits : t.waits (t.tasks.get n) = s.waits (s.tasks.get n) := by
        apply waits_congr
        · rw [hOld n hLt]
        · intro k hChained
          rw [hOld k ((hc.earlier n hLt k hChained).trans hLt)]
      rw [hWaits, hOld n hLt, hPending n hLt]
      exact hc.onePlace n hLt
    · rw [hNew, hNoneRuns, hNoneFinishes]
      exact hPlace
  case started_eq =>
    intro n hn
    rcases Nat.lt_succ_iff_lt_or_eq.mp hn with hLt | rfl
    · rw [hOld n hLt]
      exact hc.started_eq n hLt
    · rw [hNew, hNoneRuns, hNoneFinishes]
      rfl
  case returned_eq =>
    intro n hn
    rcases Nat.lt_succ_iff_lt_or_eq.mp hn with hLt | rfl
    · rw [hOld n hLt]
      exact hc.returned_eq n hLt
    · rw [hNew, hNoneFinishes]
      rfl
  case early_eq =>
    intro n hn
    rcases Nat.lt_succ_iff_lt_or_eq.mp hn with hLt | rfl
    · rw [hOld n hLt]
      exact hc.early_eq n hLt
    · rw [hNew]

/-- A new task is submitted at once if it is chained to none, or to one that
is complete. -/
theorem submitNew (hc : s.Consistent) {prior : Option Nat}
    (hTo : ∀ k, prior = some k → k < s.tasks.size ∧ (s.tasks.get k).complete = true) :
    ({ s with tasks := s.tasks.push { chainedTo := prior } }.submit s.tasks.size).Consistent := by
  have hOld := fun j (hj : j < s.tasks.size) => s.tasks.get_push_of_lt { chainedTo := prior } hj
  apply hc.of_grown rfl hOld (s.tasks.get_push_size _) (fun k hPrior => (hTo k hPrior).1)
  · intro k hk n hNext
    exact Or.inl (hc.slot k hk n hNext)
  · exact fun _ _ _ _ hNext => hNext
  · intro k hPrior hOpen
    rw [(hTo k hPrior).2] at hOpen
    cases hOpen
  · rfl
  · rfl
  · intro n hn
    rw [submit, List.count_append, List.count_singleton, beq_false_of_ne (Nat.ne_of_gt hn)]
    rfl
  · intro n hn
    simpa [submit] using hn
  · rw [submit, List.count_append, hc.count_fresh.1, List.count_singleton_self]
    cases prior with
    | none => rfl
    | some k =>
        obtain ⟨hk, hComplete⟩ := hTo k rfl
        simp only [waits, hOld k hk, hComplete, Bool.not_true, Bool.toNat_false]

/-- A new task takes the free place for a continuation. -/
theorem attach (hc : s.Consistent) {k : Nat} (hk : k < s.tasks.size)
    (hOpen : (s.tasks.get k).complete = false) (hFree : (s.tasks.get k).continuation = none) :
    ({ s with
        tasks := (s.tasks.push { chainedTo := some k }).set k
          { s.tasks.get k with continuation := some s.tasks.size } } : System).Consistent := by
  let tasks := (s.tasks.push { chainedTo := some k }).set k
    { s.tasks.get k with continuation := some s.tasks.size }
  have hOld : ∀ j < s.tasks.size, tasks.get j = { s.tasks.get j with
      continuation := if j = k then some s.tasks.size else (s.tasks.get j).continuation } := by
    intro j hj
    by_cases hSame : j = k
    · subst hSame
      simp only [tasks, Vec.get_set_self, ↓reduceIte]
    · simp only [tasks, Vec.get_set_of_ne _ _ hSame, Vec.get_push_of_lt _ _ hj, if_neg hSame]
  have hNew : tasks.get s.tasks.size = { chainedTo := some k } := by
    simp only [tasks, Vec.get_set_of_ne _ _ (Nat.ne_of_gt hk), Vec.get_push_size]
  apply hc.of_grown (t := { s with tasks := tasks }) rfl hOld hNew
  · rintro k' hPrior
    exact Option.some.inj hPrior ▸ hk
  · intro k' hk' n hNext
    split_ifs at hNext with hSame
    · exact Or.inr ⟨(Option.some.inj hNext).symm, hSame ▸ rfl⟩
    · exact Or.inl (hc.slot k' hk' n hNext)
  · intro k' _ _ n hNext
    have hOther : k' ≠ k := by
      rintro rfl
      rw [hFree] at hNext
      cases hNext
    rw [if_neg hOther, hNext]
  · intro k' hPrior _
    exact if_pos (Option.some.inj hPrior).symm
  · rfl
  · rfl
  · exact fun _ _ => rfl
  · exact fun _ hn => Or.inl hn
  · simp only [waits, hOld k hk, hOpen, hc.count_fresh.1, Bool.not_false, Bool.toNat_true]

end Consistent

theorem finish_eq (s : System) (n : Nat) : s.finish n =
    { tasks := s.tasks.set n { s.tasks.get n with complete := true }
      pending := s.pending ++ (s.tasks.get n).continuation.toList
      running := s.running
      finishing := s.finishing.erase n } := by
  cases hNext : (s.tasks.get n).continuation with
  | none => simp only [finish, hNext, Option.toList_none, List.append_nil]
  | some cont => simp only [finish, submit, hNext, Option.toList_some]

namespace Consistent

/-- The task that waited for this one is submitted. -/
theorem finish_waits (hc : s.Consistent) {n j : Nat} (hn : n < s.tasks.size)
    (hOpen : (s.tasks.get n).complete = false) (hj : j < s.tasks.size) :
    (s.finish n).waits (s.tasks.get j) + (s.tasks.get n).continuation.toList.count j =
      s.waits (s.tasks.get j) := by
  have hSlot : ∀ cont, (s.tasks.get n).continuation = some cont →
      (s.tasks.get cont).chainedTo = some n := fun cont hNext => (hc.slot n hn cont hNext).2
  rw [finish_eq]
  cases hChained : (s.tasks.get j).chainedTo with
  | none =>
      simp only [waits, hChained, Nat.zero_add]
      cases hNext : (s.tasks.get n).continuation with
      | none => rfl
      | some cont =>
          have hOther : cont ≠ j := by
            rintro rfl
            rw [hSlot cont hNext] at hChained
            cases hChained
          simp [hOther]
  | some k =>
      by_cases hSame : k = n
      · subst hSame
        simp only [waits, hChained, Vec.get_set_self, hc.waiting j hj k hChained hOpen, hOpen,
          Option.toList_some, List.count_singleton_self, Bool.not_true, Bool.not_false,
          Bool.toNat_true, Bool.toNat_false, Nat.zero_add]
      · simp only [waits, hChained, Vec.get_set_of_ne _ _ hSame]
        cases hNext : (s.tasks.get n).continuation with
        | none => rfl
        | some cont =>
            have hOther : cont ≠ j := by
              rintro rfl
              rw [hSlot cont hNext] at hChained
              exact hSame (Option.some.inj hChained).symm
            simp [hOther]

/-- A task whose job finishes is not complete yet. -/
theorem open_of_finishing (hc : s.Consistent) {n : Nat} (hJob : n ∈ s.finishing) :
    (s.tasks.get n).complete = false := by
  have hFinishing := List.count_pos_iff.mpr hJob
  have hPlace := hc.onePlace n (hc.jobs n (by simp [hJob]))
  cases hComplete : (s.tasks.get n).complete with
  | false => rfl
  | true =>
      rw [hComplete, Bool.toNat_true] at hPlace
      omega

/-- The job leaves the last list and its task becomes complete. -/
theorem count_finish (hc : s.Consistent) {n : Nat} (hJob : n ∈ s.finishing) (j : Nat) :
    (s.finish n).finishing.count j + ((s.finish n).tasks.get j).complete.toNat =
      s.finishing.count j + (s.tasks.get j).complete.toNat := by
  have hFinishing := List.count_pos_iff.mpr hJob
  rw [s.finish_eq n]
  by_cases hSame : j = n
  · subst hSame
    simp only [Vec.get_set_self, List.count_erase_self, hc.open_of_finishing hJob,
      Bool.toNat_true, Bool.toNat_false]
    omega
  · simp only [Vec.get_set_of_ne _ _ hSame, List.count_erase_of_ne hSame]

theorem finish (hc : s.Consistent) {n : Nat} (hJob : n ∈ s.finishing) :
    (s.finish n).Consistent := by
  have hn := hc.jobs n (by simp [hJob])
  have hOpen := hc.open_of_finishing hJob
  have hDone := hc.count_finish hJob
  let tasks := s.tasks.set n { s.tasks.get n with complete := true }
  let next : System :=
    ⟨tasks, s.pending ++ (s.tasks.get n).continuation.toList, s.running, s.finishing.erase n⟩
  have hNext : s.finish n = next := s.finish_eq n
  have hWaits : ∀ j < s.tasks.size, next.waits (s.tasks.get j) +
      (s.tasks.get n).continuation.toList.count j = s.waits (s.tasks.get j) := by
    intro j hj
    rw [← hNext]
    exact hc.finish_waits hn hOpen hj
  rw [hNext] at hDone ⊢
  simp only [next] at hDone
  have hChained : ∀ j, (tasks.get j).chainedTo = (s.tasks.get j).chainedTo :=
    Vec.apply_get_set (·.chainedTo) s.tasks (by rfl)
  have hSlot : ∀ j, (tasks.get j).continuation = (s.tasks.get j).continuation :=
    Vec.apply_get_set (·.continuation) s.tasks (by rfl)
  have hStarted : ∀ j, (tasks.get j).started = (s.tasks.get j).started :=
    Vec.apply_get_set (·.started) s.tasks (by rfl)
  have hReturned : ∀ j, (tasks.get j).returned = (s.tasks.get j).returned :=
    Vec.apply_get_set (·.returned) s.tasks (by rfl)
  have hEarly : ∀ j, (tasks.get j).early = (s.tasks.get j).early :=
    Vec.apply_get_set (·.early) s.tasks (by rfl)
  constructor
  case jobs =>
    intro j hj
    simp only [next, List.mem_append] at hj
    rcases hj with ((hOld | hCont) | hOld) | hOld
    · exact hc.jobs j (by simp [hOld])
    · exact (hc.slot n hn j (by simpa using hCont)).1
    · exact hc.jobs j (by simp [hOld])
    · exact hc.jobs j (by simp [List.mem_of_mem_erase hOld])
  case earlier =>
    intro j hj k hTo
    exact hc.earlier j hj k ((hChained j).symm.trans hTo)
  case slot =>
    intro k hk j hNext
    obtain ⟨hj, hBack⟩ := hc.slot k hk j ((hSlot k).symm.trans hNext)
    exact ⟨hj, (hChained j).trans hBack⟩
  case waiting =>
    intro j hj k hTo hStill
    have hOther : k ≠ n := by
      rintro rfl
      simp only [next, tasks, Vec.get_set_self] at hStill
      cases hStill
    simp only [next, tasks, Vec.get_set_of_ne _ _ hOther] at hStill ⊢
    exact hc.waiting j hj k ((hChained j).symm.trans hTo) hStill
  case onePlace =>
    intro j hj
    have hPlace := hc.onePlace j hj
    have hMoved := hWaits j hj
    have hLast := hDone j
    have hSame : next.waits (tasks.get j) = next.waits (s.tasks.get j) :=
      waits_congr (hChained j) fun k _ => rfl
    simp only [next] at hSame hMoved ⊢
    rw [hSame, List.count_append]
    omega
  case started_eq =>
    intro j hj
    have hSum := hDone j
    have hOld := hc.started_eq j hj
    simp only [next, hStarted]
    omega
  case returned_eq =>
    intro j hj
    have hSum := hDone j
    have hOld := hc.returned_eq j hj
    simp only [next, hReturned]
    omega
  case early_eq =>
    intro j hj
    exact (hEarly j).trans (hc.early_eq j hj)

theorem step (hc : s.Consistent) {action : Action} (hGuard : s.KeepsContinuation action)
    (hStep : s.step action = some t) : t.Consistent := by
  cases action with
  | submitAndContinue =>
      obtain rfl := Option.some.inj hStep
      exact hc.submitNew (by simp)
  | chainNext k =>
      obtain ⟨hk, rfl⟩ := of_ite_eq_some hStep
      simp only [System.chainNext, Vec.get_push_of_lt _ _ hk]
      split_ifs with hComplete
      · apply hc.submitNew
        intro k' hPrior
        obtain rfl := Option.some.inj hPrior
        exact ⟨hk, hComplete⟩
      · have hOpen := Bool.eq_false_iff.mpr hComplete
        exact hc.attach hk hOpen (hGuard hOpen)
  | start n =>
      obtain ⟨hJob, rfl⟩ := of_ite_eq_some hStep
      exact hc.start hJob
  | taskReturns n =>
      obtain ⟨hJob, rfl⟩ := of_ite_eq_some hStep
      exact hc.taskReturns hJob
  | finish n =>
      obtain ⟨hJob, rfl⟩ := of_ite_eq_some hStep
      exact hc.finish hJob

end Consistent

theorem initial_consistent : initial.Consistent := by
  constructor <;> simp [initial, Vec.empty]

theorem always_consistent {actions : List Action}
    (hGuard : Guarded step KeepsContinuation initial actions) :
    Always step Consistent initial actions :=
  always_of_guarded (fun _ _ _ hc hKeeps hStep => hc.step hKeeps hStep) initial_consistent hGuard

/-- In every interleaving in which no continuation is replaced, each task that
is passed to `then` runs once and late enough. -/
theorem runsOnce_of_keepsContinuation (actions : List Action)
    (hGuard : Guarded step KeepsContinuation initial actions) :
    Always step RunsOnce initial actions :=
  (always_consistent hGuard).mono fun _ hc => hc.runsOnce

theorem runsOnce_of_keepsContinuation_chain :
    Always step RunsOnce initial [.submitAndContinue, .chainNext 0] := by
  apply runsOnce_of_keepsContinuation
  refine ⟨trivial, fun s hStep => ⟨?_, fun _ _ => trivial⟩⟩
  obtain rfl := Option.some.inj hStep
  intro _
  rfl

/-- Tasks 1 and 2 are chained to task 0 before it is complete. Task 1 never
runs. -/
theorem second_then_drops_first :
    ∃ s : System,
      run step initial [.submitAndContinue, .chainNext 0, .chainNext 0, .start 0, .taskReturns 0,
        .finish 0, .start 2, .taskReturns 2, .finish 2] = some s ∧
      s.Idle ∧ (s.tasks.get 1).chainedTo = some 0 ∧ (s.tasks.get 1).started = 0 ∧ ¬s.RunsOnce := by
  have hFinish : ∃ s : System,
      run step initial [.submitAndContinue, .chainNext 0, .chainNext 0, .start 0, .taskReturns 0,
        .finish 0, .start 2, .taskReturns 2, .finish 2] = some s ∧
      s.Idle ∧ s.tasks.size = 3 ∧ (s.tasks.get 1).chainedTo = some 0 ∧
      (s.tasks.get 1).started = 0 :=
    ⟨_, rfl, ⟨rfl, rfl, rfl⟩, rfl, rfl, rfl⟩
  obtain ⟨s, hRun, hIdle, hSize, hChained, hStarted⟩ := hFinish
  refine ⟨s, hRun, hIdle, hChained, hStarted, fun hOnce => ?_⟩
  have hOne := (hOnce.once hIdle 1 (by omega) (by simp [hChained])).1
  omega

end System
end CppPerf.Pool.TaskChaining
