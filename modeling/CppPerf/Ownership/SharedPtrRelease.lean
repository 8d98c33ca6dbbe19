import CppPerf.Semantics.Run
import Mathlib.Data.Fintype.Card
import Mathlib.Algebra.Ring.Nat

/-! Several threads destroy their handles of one object. The test of the count
and the decrement in `delete_me` are two atomic operations, so two threads can
both see a count of two, and then nobody deletes. -/
namespace CppPerf.Ownership.SharedPtr

open Transition

/-- What a thread does next in `delete_me`: the load of the count, the branch
that it took after it, or nothing. -/
inductive Release where
  | load
  | decrement
  | deleteNaked
  | deleteCounter
  | done
deriving DecidableEq

/-- The count is gone once the control block is deleted. -/
structure Shared (n : Nat) where
  threads : Fin n → Release
  count : Option Int32
  objectDeletions : Nat
  counterDeletions : Nat
  touchedAfter : Bool

namespace Shared

variable {n : Nat}

/-- `n` handles of one object. -/
def initial (n : Nat) : Shared n := ⟨fun _ => .load, some (Int32.ofNat n), 0, 0, false⟩

def goTo (w : Shared n) (i : Fin n) (next : Release) : Shared n :=
  { w with threads := Function.update w.threads i next }

/-- The next operation of thread `i`. -/
def step (w : Shared n) (i : Fin n) : Option (Shared n) :=
  match w.threads i with
  | .load =>
      match w.count with
      | none => some { w.goTo i .done with touchedAfter := true }
      | some count => some (w.goTo i (if count = 1 then .deleteNaked else .decrement))
  | .decrement =>
      match w.count with
      | none => some { w.goTo i .done with touchedAfter := true }
      | some count => some { w.goTo i .done with count := some (count - 1) }
  | .deleteNaked =>
      some { w.goTo i .deleteCounter with objectDeletions := w.objectDeletions + 1 }
  | .deleteCounter =>
      some { w.goTo i .done with count := none, counterDeletions := w.counterDeletions + 1 }
  | .done => none

def Complete (w : Shared n) : Prop := ∀ i, w.threads i = .done

/-- Both are deleted once, and nobody came too late. -/
structure Released (w : Shared n) : Prop where
  object : w.objectDeletions = 1
  counter : w.counterDeletions = 1
  untouched : w.touchedAfter = false

def OthersDone (w : Shared n) (i : Fin n) : Prop := ∀ j, j ≠ i → w.threads j = .done

/-- A thread that loads last, or loads a one, loads when the others are
through. -/
def LoadsAlone (w : Shared n) (i : Fin n) : Prop :=
  w.threads i = .load → (w.count = some 1 ∨ ∀ j, j ≠ i → w.threads j ≠ .load) → w.OthersDone i

/-- The handles that the count still stands for. -/
def pending (w : Shared n) : Finset (Fin n) := Finset.univ.filter fun i => w.threads i ≠ .done

/-- Nobody has deleted anything. -/
structure Untouched (w : Shared n) : Prop where
  count : w.count = some (Int32.ofNat w.pending.card)
  objectDeletions : w.objectDeletions = 0
  counterDeletions : w.counterDeletions = 0
  touchedAfter : w.touchedAfter = false

/-- The invariant: some thread has yet to load, or one thread is left and
deletes, or all is done. -/
inductive Orderly (w : Shared n) : Prop where
  | loading (i : Fin n) (load : w.threads i = .load) (untouched : w.Untouched)
      (branch : ∀ j, w.threads j ≠ .deleteNaked ∧ w.threads j ≠ .deleteCounter)
  | deletingNaked (i : Fin n) (last : w.threads i = .deleteNaked) (others : w.OthersDone i)
      (object : w.objectDeletions = 0) (counter : w.counterDeletions = 0)
      (untouched : w.touchedAfter = false)
  | deletingCounter (i : Fin n) (last : w.threads i = .deleteCounter) (others : w.OthersDone i)
      (object : w.objectDeletions = 1) (counter : w.counterDeletions = 0)
      (untouched : w.touchedAfter = false)
  | released (complete : w.Complete) (released : w.Released)

variable {w w' : Shared n}

@[simp] theorem threads_goTo_self (w : Shared n) (i : Fin n) (next : Release) :
    (w.goTo i next).threads i = next := Function.update_self ..

theorem threads_goTo_of_ne (w : Shared n) {i j : Fin n} (next : Release) (h : j ≠ i) :
    (w.goTo i next).threads j = w.threads j := Function.update_of_ne h ..

/-- What the thread that moves and the others have in common. -/
theorem forall_goTo (p : Release → Prop) {i : Fin n} {next : Release} (hNext : p next)
    (hOthers : ∀ j, j ≠ i → p (w.threads j)) (j : Fin n) : p ((w.goTo i next).threads j) := by
  by_cases hThread : j = i
  · rw [hThread, threads_goTo_self]
    exact hNext
  · rw [threads_goTo_of_ne w next hThread]
    exact hOthers j hThread

theorem mem_pending {i : Fin n} : i ∈ w.pending ↔ w.threads i ≠ .done := by simp [pending]

/-- A thread that is not at its end stays pending. -/
theorem pending_goTo {i : Fin n} {next : Release} (hNow : w.threads i ≠ .done)
    (hNext : next ≠ .done) : (w.goTo i next).pending = w.pending := by
  ext j
  rw [mem_pending, mem_pending]
  by_cases hThread : j = i
  · rw [hThread, threads_goTo_self]
    exact iff_of_true hNext hNow
  · rw [threads_goTo_of_ne w next hThread]

theorem pending_goTo_done (w : Shared n) (i : Fin n) :
    (w.goTo i .done).pending = w.pending.erase i := by
  ext j
  rw [Finset.mem_erase, mem_pending, mem_pending]
  by_cases hThread : j = i
  · simp [hThread]
  · rw [threads_goTo_of_ne w .done hThread]
    exact (and_iff_right hThread).symm

theorem pending_eq_singleton {i : Fin n} (hNow : w.threads i ≠ .done) (hOthers : w.OthersDone i) :
    w.pending = {i} := by
  ext j
  rw [mem_pending, Finset.mem_singleton]
  constructor
  · intro hPending
    by_contra hOther
    exact hPending (hOthers j hOther)
  · rintro rfl
    exact hNow

theorem ofNat_pred {m : Nat} (h : 0 < m) : Int32.ofNat m - 1 = Int32.ofNat (m - 1) := by
  obtain ⟨k, rfl⟩ : ∃ k, m = k + 1 := ⟨m - 1, by omega⟩
  rw [Int32.ofNat_add, Nat.add_sub_cancel]
  simp

/-- Another thread than the one that moves has moved nothing. -/
theorem othersDone_goTo {i : Fin n} (h : w.OthersDone i) (next : Release) :
    (w.goTo i next).OthersDone i := by
  intro j hOther
  rw [threads_goTo_of_ne w next hOther]
  exact h j hOther

theorem complete_goTo {i : Fin n} (h : w.OthersDone i) : (w.goTo i .done).Complete :=
  forall_goTo (· = .done) rfl h

/-- The count that a thread reads decides its branch. -/
theorem step_load {i : Fin n} {count : Int32} (hNow : w.threads i = .load)
    (hCount : w.count = some count) :
    w.step i = some (w.goTo i (if count = 1 then .deleteNaked else .decrement)) := by
  simp [step, hNow, hCount]

theorem step_decrement {i : Fin n} {count : Int32} (hNow : w.threads i = .decrement)
    (hCount : w.count = some count) :
    w.step i = some { w.goTo i .done with count := some (count - 1) } := by
  simp [step, hNow, hCount]

theorem step_deleteNaked {i : Fin n} (hNow : w.threads i = .deleteNaked) :
    w.step i =
      some { w.goTo i .deleteCounter with objectDeletions := w.objectDeletions + 1 } := by
  simp [step, hNow]

theorem step_deleteCounter {i : Fin n} (hNow : w.threads i = .deleteCounter) :
    w.step i =
      some { w.goTo i .done with
        count := none, counterDeletions := w.counterDeletions + 1 } := by
  simp [step, hNow]

theorem step_done {i : Fin n} (hNow : w.threads i = .done) : w.step i = none := by
  simp [step, hNow]

/-- Only the last thread can still move. -/
theorem eq_of_othersDone {i j : Fin n} (h : w.OthersDone i) (hStep : w.step j = some w') :
    j = i := by
  by_contra hOther
  rw [step_done (h j hOther)] at hStep
  cases hStep

theorem Untouched.goTo {i : Fin n} {next : Release} (h : w.Untouched)
    (hNow : w.threads i ≠ .done) (hNext : next ≠ .done) : (w.goTo i next).Untouched := by
  refine ⟨?_, h.objectDeletions, h.counterDeletions, h.touchedAfter⟩
  rw [pending_goTo hNow hNext]
  exact h.count

/-- The count still stands for the handles that are left. -/
theorem Untouched.decrement {i : Fin n} {count : Int32} (h : w.Untouched)
    (hNow : w.threads i ≠ .done) (hCount : w.count = some count) :
    { w.goTo i .done with count := some (count - 1) : Shared n }.Untouched := by
  refine ⟨?_, h.objectDeletions, h.counterDeletions, h.touchedAfter⟩
  have hMem : i ∈ w.pending := mem_pending.mpr hNow
  have hLeft : ({ w.goTo i .done with count := some (count - 1) : Shared n }).pending =
      w.pending.erase i := pending_goTo_done w i
  have hRead : count = Int32.ofNat w.pending.card := Option.some.inj (hCount.symm.trans h.count)
  rw [hLeft, Finset.card_erase_of_mem hMem, ← ofNat_pred (Finset.card_pos.mpr ⟨i, hMem⟩), hRead]

theorem Orderly.step_of_loading {i k : Fin n} (hLoad : w.threads k = .load)
    (hUntouched : w.Untouched)
    (hBranch : ∀ j, w.threads j ≠ .deleteNaked ∧ w.threads j ≠ .deleteCounter)
    (hGuard : w.LoadsAlone i) (hStep : w.step i = some w') : w'.Orderly := by
  cases hNow : w.threads i with
  | load =>
      have hPending : w.threads i ≠ .done := by simp [hNow]
      rw [step_load hNow hUntouched.count] at hStep
      obtain rfl := Option.some.inj hStep
      by_cases hOne : Int32.ofNat w.pending.card = 1
      · have hOthers := hGuard hNow (Or.inl (by rw [hUntouched.count, hOne]))
        rw [if_pos hOne]
        exact .deletingNaked i (threads_goTo_self ..) (othersDone_goTo hOthers _)
          hUntouched.objectDeletions hUntouched.counterDeletions hUntouched.touchedAfter
      · -- If all the others had loaded, they would be through, and the count one.
        have hNext : ∃ j, j ≠ i ∧ w.threads j = .load := by
          by_contra hNone
          push Not at hNone
          have hAlone := pending_eq_singleton hPending (hGuard hNow (Or.inr hNone))
          rw [hAlone, Finset.card_singleton] at hOne
          exact hOne rfl
        obtain ⟨j, hOther, hThread⟩ := hNext
        rw [if_neg hOne]
        refine .loading j ?_ (hUntouched.goTo hPending (by decide)) ?_
        · rw [threads_goTo_of_ne w _ hOther]
          exact hThread
        · exact forall_goTo (fun next => next ≠ .deleteNaked ∧ next ≠ .deleteCounter)
            ⟨by decide, by decide⟩ fun k _ => hBranch k
  | decrement =>
      have hPending : w.threads i ≠ .done := by simp [hNow]
      rw [step_decrement hNow hUntouched.count] at hStep
      obtain rfl := Option.some.inj hStep
      have hOther : k ≠ i := by
        rintro rfl
        rw [hLoad] at hNow
        cases hNow
      refine .loading k ?_ (hUntouched.decrement hPending hUntouched.count) ?_
      · exact (threads_goTo_of_ne w .done hOther).trans hLoad
      · exact forall_goTo (fun next => next ≠ .deleteNaked ∧ next ≠ .deleteCounter)
          ⟨by decide, by decide⟩ fun j _ => hBranch j
  | deleteNaked => exact absurd hNow (hBranch i).1
  | deleteCounter => exact absurd hNow (hBranch i).2
  | done =>
      rw [step_done hNow] at hStep
      cases hStep

theorem Orderly.step (h : w.Orderly) {i : Fin n} (hGuard : w.LoadsAlone i)
    (hStep : w.step i = some w') : w'.Orderly := by
  cases h with
  | loading k load untouched branch =>
      exact Orderly.step_of_loading load untouched branch hGuard hStep
  | deletingNaked k last others object counter untouched =>
      obtain rfl := eq_of_othersDone others hStep
      rw [step_deleteNaked last] at hStep
      obtain rfl := Option.some.inj hStep
      exact .deletingCounter i (threads_goTo_self ..) (othersDone_goTo others _)
        (congrArg (· + 1) object) counter untouched
  | deletingCounter k last others object counter untouched =>
      obtain rfl := eq_of_othersDone others hStep
      rw [step_deleteCounter last] at hStep
      obtain rfl := Option.some.inj hStep
      exact .released (complete_goTo others) ⟨object, congrArg (· + 1) counter, untouched⟩
  | released complete released =>
      rw [step_done (complete i)] at hStep
      cases hStep

theorem Orderly.released_of_complete (h : w.Orderly) (hComplete : w.Complete) : w.Released := by
  cases h with
  | loading k load untouched branch =>
      rw [hComplete k] at load
      cases load
  | deletingNaked k last others object counter untouched =>
      rw [hComplete k] at last
      cases last
  | deletingCounter k last others object counter untouched =>
      rw [hComplete k] at last
      cases last
  | released complete released => exact released

theorem initial_orderly (hThreads : 0 < n) : (initial n).Orderly := by
  refine .loading ⟨0, hThreads⟩ rfl ⟨?_, rfl, rfl, rfl⟩ fun j => ?_
  · have hAll : (initial n).pending = Finset.univ := by
      ext j
      simp [mem_pending, initial]
    rw [hAll, Finset.card_univ, Fintype.card_fin]
    rfl
  · simp [initial]

/-- All threads have loaded more than a one. Nobody will delete. -/
structure Leaked (w : Shared n) : Prop where
  branch : ∀ j, w.threads j = .decrement ∨ w.threads j = .done
  objectDeletions : w.objectDeletions = 0

theorem Leaked.step (h : w.Leaked) {i : Fin n} (hStep : w.step i = some w') : w'.Leaked := by
  have hKeep : ∀ j, (w.goTo i .done).threads j = .decrement ∨
      (w.goTo i .done).threads j = .done :=
    forall_goTo (fun next => next = .decrement ∨ next = .done) (Or.inr rfl) fun j _ => h.branch j
  rcases h.branch i with hNow | hNow
  · cases hCount : w.count with
    | none =>
        simp only [Shared.step, hNow, hCount] at hStep
        obtain rfl := Option.some.inj hStep
        exact ⟨hKeep, h.objectDeletions⟩
    | some count =>
        rw [step_decrement hNow hCount] at hStep
        obtain rfl := Option.some.inj hStep
        exact ⟨hKeep, h.objectDeletions⟩
  · rw [step_done hNow] at hStep
    cases hStep

/-- With at most `2 ^ 32` handles only the last one reads a one. -/
theorem ofNat_ne_one {m : Nat} (hMore : 1 < m) (hRange : m ≤ 2 ^ 32) : Int32.ofNat m ≠ 1 := by
  intro hOne
  have hInt := congrArg Int32.toInt hOne
  rw [Int32.toInt_ofNat', Int.bmod_def] at hInt
  have hRight : (1 : Int32).toInt = 1 := rfl
  have hSize : (Int32.size : Int) = 2 ^ 32 := rfl
  rw [hRight, hSize] at hInt
  split_ifs at hInt <;> omega

theorem Orderly.leaked (h : w.Orderly) (hRange : n ≤ 2 ^ 32) {i : Fin n}
    (hBad : ¬w.LoadsAlone i) (hStep : w.step i = some w') : w'.Leaked := by
  rw [LoadsAlone] at hBad
  push Not at hBad
  obtain ⟨hNow, hLast, hOthers⟩ := hBad
  have hPending : w.threads i ≠ .done := by simp [hNow]
  cases h with
  | loading k load untouched branch =>
      have hMore : 1 < w.pending.card := by
        rw [OthersDone] at hOthers
        push Not at hOthers
        obtain ⟨j, hOther, hLeft⟩ := hOthers
        exact Finset.one_lt_card.mpr ⟨j, mem_pending.mpr hLeft, i, mem_pending.mpr hPending, hOther⟩
      have hFew : w.pending.card ≤ n := (Finset.card_le_univ _).trans_eq (Fintype.card_fin n)
      have hOne := ofNat_ne_one hMore (hFew.trans hRange)
      rw [step_load hNow untouched.count, if_neg hOne] at hStep
      obtain rfl := Option.some.inj hStep
      have hRead : w.count ≠ some 1 := by
        rw [untouched.count]
        exact fun hSame => hOne (Option.some.inj hSame)
      have hLoaded := hLast.resolve_left hRead
      have hBranch : ∀ j, j ≠ i → w.threads j = .decrement ∨ w.threads j = .done := by
        intro j hThread
        obtain ⟨hNaked, hCounter⟩ := branch j
        cases hBranch : w.threads j with
        | load => exact absurd hBranch (hLoaded j hThread)
        | decrement => exact Or.inl rfl
        | deleteNaked => exact absurd hBranch hNaked
        | deleteCounter => exact absurd hBranch hCounter
        | done => exact Or.inr rfl
      exact ⟨forall_goTo (fun next => next = .decrement ∨ next = .done) (Or.inl rfl) hBranch,
        untouched.objectDeletions⟩
  | deletingNaked k last others object counter untouched =>
      obtain rfl := eq_of_othersDone others hStep
      exact absurd others hOthers
  | deletingCounter k last others object counter untouched =>
      obtain rfl := eq_of_othersDone others hStep
      exact absurd others hOthers
  | released complete released => exact absurd (complete i) hPending

/-- A complete interleaving deletes the object and its control block once,
and leaves them alone after that, if no thread loads last, or loads a one,
before the others are through. With at most `2 ^ 32` handles it does so in no
other case. -/
theorem released_iff_loadsAlone (hThreads : 0 < n) {schedule : List (Fin n)}
    (hRun : run step (initial n) schedule = some w) (hComplete : w.Complete) :
    (Guarded step LoadsAlone (initial n) schedule → w.Released) ∧
      (n ≤ 2 ^ 32 → w.Released → Guarded step LoadsAlone (initial n) schedule) := by
  have hStart := initial_orderly hThreads
  constructor
  · intro hGuard
    have hAlways :=
      always_of_guarded (fun _ _ _ h hAlone hStep => h.step hAlone hStep) hStart hGuard
    exact (hAlways.finish hRun).released_of_complete hComplete
  · intro hRange hReleased
    have hSound : ¬w.Leaked := by
      intro hLeaked
      have hNone := hLeaked.objectDeletions
      rw [hReleased.object] at hNone
      cases hNone
    exact guarded_of_finish (fun _ _ _ h hAlone hStep => h.step hAlone hStep)
      (fun _ _ _ h hBad hStep => h.leaked hRange hBad hStep)
      (fun _ _ _ h hStep => h.step hStep) hStart hRun hSound

/-- One thread after the other. -/
theorem one_by_one_loadsAlone :
    Guarded step LoadsAlone (initial 2) [0, 0, 1, 1, 1] ∧
      ∃ w, run step (initial 2) [0, 0, 1, 1, 1] = some w ∧ w.Released := by
  have hFinish : ∃ w, run step (initial 2) [0, 0, 1, 1, 1] = some w ∧
      (w.threads 0 = .done ∧ w.threads 1 = .done) ∧ w.Released :=
    ⟨_, rfl, ⟨rfl, rfl⟩, ⟨rfl, rfl, rfl⟩⟩
  obtain ⟨w, hRun, hDone, hReleased⟩ := hFinish
  have hComplete : w.Complete := Fin.forall_fin_two.mpr hDone
  exact ⟨(released_iff_loadsAlone (by decide) hRun hComplete).2 (by decide) hReleased,
    w, hRun, hReleased⟩

/-- Both threads load a two. -/
theorem both_load_two_leaked :
    ∃ w, run step (initial 2) [0, 1, 0, 1] = some w ∧ w.Complete ∧ ¬w.Released := by
  have hFinish : ∃ w, run step (initial 2) [0, 1, 0, 1] = some w ∧
      (w.threads 0 = .done ∧ w.threads 1 = .done) ∧ w.objectDeletions = 0 :=
    ⟨_, rfl, ⟨rfl, rfl⟩, rfl⟩
  obtain ⟨w, hRun, hDone, hNone⟩ := hFinish
  refine ⟨w, hRun, Fin.forall_fin_two.mpr hDone, fun hReleased => ?_⟩
  rw [hReleased.object] at hNone
  cases hNone

end Shared
end CppPerf.Ownership.SharedPtr
