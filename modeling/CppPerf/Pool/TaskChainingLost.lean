import CppPerf.Pool.TaskChaining

/-! A continuation that is replaced never runs. Once the work is done, the runs
in which every chained task has run are thus exactly those in which none was
replaced. -/
namespace CppPerf.Pool.TaskChaining

open Indexed Transition

namespace System

variable {s t : System}

/-- The task has been chained and has not been started, and it is neither one
of the jobs nor one of the continuations. -/
structure Lost (s : System) (n : Nat) : Prop where
  lt : n < s.tasks.size
  chained : (s.tasks.get n).chainedTo ≠ none
  started_eq : (s.tasks.get n).started = 0
  jobs : ∀ j ∈ s.pending ++ s.running ++ s.finishing, j < s.tasks.size ∧ j ≠ n
  slots : ∀ k < s.tasks.size, ∀ j, (s.tasks.get k).continuation = some j →
    j < s.tasks.size ∧ j ≠ n

namespace Lost

variable {n : Nat}

theorem not_runsOnce (hLost : s.Lost n) (hIdle : s.Idle) : ¬s.RunsOnce := by
  intro hOnce
  have hStarted := (hOnce.once hIdle n hLost.lt hLost.chained).1
  rw [hLost.started_eq] at hStarted
  cases hStarted

theorem push (hLost : s.Lost n) {ti : ChainingInternals} (hNext : ti.continuation = none) :
    ({ s with tasks := s.tasks.push ti } : System).Lost n := by
  have hSame := s.tasks.get_push_of_lt ti hLost.lt
  refine ⟨Nat.lt_succ_of_lt hLost.lt, hSame ▸ hLost.chained, hSame ▸ hLost.started_eq, ?_, ?_⟩
  · intro j hj
    exact ⟨Nat.lt_succ_of_lt (hLost.jobs j hj).1, (hLost.jobs j hj).2⟩
  · intro k hk j hSlot
    rcases Nat.lt_succ_iff_lt_or_eq.mp hk with hLt | rfl
    · rw [Vec.get_push_of_lt _ _ hLt] at hSlot
      exact ⟨Nat.lt_succ_of_lt (hLost.slots k hLt j hSlot).1, (hLost.slots k hLt j hSlot).2⟩
    · rw [Vec.get_push_size, hNext] at hSlot
      cases hSlot

theorem submit (hLost : s.Lost n) {m : Nat} (hm : m < s.tasks.size ∧ m ≠ n) :
    (s.submit m).Lost n := by
  refine ⟨hLost.lt, hLost.chained, hLost.started_eq, ?_, hLost.slots⟩
  intro j hj
  simp only [System.submit, List.mem_append, List.mem_singleton] at hj
  have hOld := hLost.jobs j
  simp only [List.mem_append] at hOld
  by_cases hNew : j = m
  · rw [hNew]
    exact hm
  · exact hOld (by tauto)

theorem chainNext (hLost : s.Lost n) {m : Nat} (k : Nat) (hm : m < s.tasks.size ∧ m ≠ n) :
    (s.chainNext k m).Lost n := by
  simp only [System.chainNext]
  split_ifs with hComplete
  · exact hLost.submit hm
  · have hChained := s.tasks.apply_get_set (·.chainedTo) (i := k)
      (a := { s.tasks.get k with continuation := some m }) rfl n
    have hStarted := s.tasks.apply_get_set (·.started) (i := k)
      (a := { s.tasks.get k with continuation := some m }) rfl n
    refine ⟨hLost.lt, hChained ▸ hLost.chained, hStarted.trans hLost.started_eq, hLost.jobs, ?_⟩
    intro k' hk' j hSlot
    by_cases hSame : k' = k
    · subst hSame
      rw [Vec.get_set_self] at hSlot
      obtain rfl := Option.some.inj hSlot
      exact hm
    · rw [Vec.get_set_of_ne _ _ hSame] at hSlot
      exact hLost.slots k' hk' j hSlot

/-- A job that moves on. -/
theorem move (hLost : s.Lost n) {m : Nat} {ti : ChainingInternals}
    {pending running finishing : List Nat} (hOther : n ≠ m)
    (hNext : ti.continuation = (s.tasks.get m).continuation)
    (hJobs : ∀ j ∈ pending ++ running ++ finishing, j ∈ s.pending ++ s.running ++ s.finishing) :
    (System.mk (s.tasks.set m ti) pending running finishing).Lost n := by
  have hSame := s.tasks.get_set_of_ne ti hOther
  refine ⟨hLost.lt, hSame ▸ hLost.chained, hSame ▸ hLost.started_eq, ?_, ?_⟩
  · intro j hj
    exact hLost.jobs j (hJobs j hj)
  · intro k hk j hSlot
    have hKept := s.tasks.apply_get_set (·.continuation) (i := m) (a := ti) hNext k
    exact hLost.slots k hk j (hKept.symm.trans hSlot)

theorem step (hLost : s.Lost n) {action : Action} (hStep : s.step action = some t) :
    t.Lost n := by
  have hOther : ∀ m, m ∈ s.pending ++ s.running ++ s.finishing → n ≠ m := by
    intro m hm
    exact (hLost.jobs m hm).2.symm
  have hFresh : s.tasks.size < s.tasks.size + 1 ∧ s.tasks.size ≠ n :=
    ⟨Nat.lt_succ_self _, Nat.ne_of_gt hLost.lt⟩
  cases action with
  | submitAndContinue =>
      obtain rfl := Option.some.inj hStep
      exact (hLost.push rfl).submit hFresh
  | chainNext k =>
      obtain ⟨hk, rfl⟩ := of_ite_eq_some hStep
      exact (hLost.push rfl).chainNext k hFresh
  | start m =>
      obtain ⟨hJob, rfl⟩ := of_ite_eq_some hStep
      refine hLost.move (hOther m (by simp [hJob])) rfl ?_
      intro j hj
      simp only [List.mem_append, List.mem_cons] at hj ⊢
      rcases hj with (hOld | rfl | hOld) | hOld
      · exact Or.inl (Or.inl (List.mem_of_mem_erase hOld))
      · exact Or.inl (Or.inl hJob)
      · exact Or.inl (Or.inr hOld)
      · exact Or.inr hOld
  | taskReturns m =>
      obtain ⟨hJob, rfl⟩ := of_ite_eq_some hStep
      refine hLost.move (hOther m (by simp [hJob])) rfl ?_
      intro j hj
      simp only [List.mem_append, List.mem_cons] at hj ⊢
      rcases hj with (hOld | hOld) | rfl | hOld
      · exact Or.inl (Or.inl hOld)
      · exact Or.inl (Or.inr (List.mem_of_mem_erase hOld))
      · exact Or.inl (Or.inr hJob)
      · exact Or.inr hOld
  | finish m =>
      obtain ⟨hJob, rfl⟩ := of_ite_eq_some hStep
      have hm := hLost.jobs m (by simp [hJob])
      have hDone : ({ s with
          tasks := s.tasks.set m { s.tasks.get m with complete := true }
          finishing := s.finishing.erase m } : System).Lost n := by
        refine hLost.move hm.2.symm rfl ?_
        intro j hj
        simp only [List.mem_append] at hj ⊢
        rcases hj with hOld | hOld
        · exact Or.inl hOld
        · exact Or.inr (List.mem_of_mem_erase hOld)
      simp only [System.finish]
      split
      · exact hDone
      · rename_i cont hNext
        exact hDone.submit (hLost.slots m hm.1 cont hNext)

end Lost

/-- A continuation that is replaced is lost. -/
theorem Consistent.replaced (hc : s.Consistent) {action : Action}
    (hBad : ¬s.KeepsContinuation action) (hStep : s.step action = some t) : ∃ n, t.Lost n := by
  cases action with
  | submitAndContinue => exact absurd trivial hBad
  | start m => exact absurd trivial hBad
  | taskReturns m => exact absurd trivial hBad
  | finish m => exact absurd trivial hBad
  | chainNext k =>
      simp only [KeepsContinuation, Classical.not_imp] at hBad
      obtain ⟨hOpen, hTaken⟩ := hBad
      obtain ⟨n, hNext⟩ := Option.ne_none_iff_exists'.mp hTaken
      obtain ⟨hk, rfl⟩ := of_ite_eq_some hStep
      obtain ⟨hn, hBack⟩ := hc.slot k hk n hNext
      have hPlace := hc.onePlace n hn
      have hStarted := hc.started_eq n hn
      simp only [waits, hBack, hOpen, Bool.not_false, Bool.toNat_true] at hPlace
      -- The task that is replaced waits, so it has no job yet.
      have hNoJob : n ∉ s.pending ++ s.running ++ s.finishing := by
        rw [← List.count_eq_zero, List.count_append, List.count_append]
        omega
      have hLater : n ≠ k := Nat.ne_of_gt (hc.earlier n hn k hBack)
      simp only [System.chainNext, Vec.get_push_of_lt _ _ hk, hOpen, Bool.false_eq_true,
        ↓reduceIte]
      refine ⟨n, Nat.lt_succ_of_lt hn, ?_, ?_, ?_, ?_⟩
      · simp only [Vec.get_set_of_ne _ _ hLater, Vec.get_push_of_lt _ _ hn, hBack, ne_eq,
          reduceCtorEq, not_false_eq_true]
      · simp only [Vec.get_set_of_ne _ _ hLater, Vec.get_push_of_lt _ _ hn]
        omega
      · intro j hj
        refine ⟨Nat.lt_succ_of_lt (hc.jobs j hj), ?_⟩
        rintro rfl
        exact hNoJob hj
      · intro k' hk' j hSlot
        by_cases hSame : k' = k
        · subst hSame
          simp only [Vec.get_set_self] at hSlot
          obtain rfl := Option.some.inj hSlot
          exact ⟨Nat.lt_succ_self _, Nat.ne_of_gt hn⟩
        · simp only [Vec.get_set_of_ne _ _ hSame] at hSlot
          rcases Nat.lt_succ_iff_lt_or_eq.mp hk' with hLt | rfl
          · rw [Vec.get_push_of_lt _ _ hLt] at hSlot
            obtain ⟨hj, hPrior⟩ := hc.slot k' hLt j hSlot
            refine ⟨Nat.lt_succ_of_lt hj, ?_⟩
            rintro rfl
            exact hSame (Option.some.inj (hPrior.symm.trans hBack))
          · rw [Vec.get_push_size] at hSlot
            cases hSlot

/-- Once the work is done, everything has run once if and only if no
continuation was replaced. -/
theorem runsOnce_iff_of_idle {finish : System} (actions : List Action)
    (hRun : run step initial actions = some finish) (hIdle : finish.Idle) :
    finish.RunsOnce ↔ Guarded step KeepsContinuation initial actions := by
  constructor
  · intro hOnce
    apply guarded_of_finish (fun _ _ _ hc hKeeps hStep => hc.step hKeeps hStep)
      (fun _ _ _ hc hBad hStep => hc.replaced hBad hStep) _ initial_consistent hRun
    · rintro ⟨n, hLost⟩
      exact hLost.not_runsOnce hIdle hOnce
    · rintro s action t ⟨n, hLost⟩ hStep
      exact ⟨n, hLost.step hStep⟩
  · intro hGuard
    exact ((always_consistent hGuard).finish hRun).runsOnce

end System
end CppPerf.Pool.TaskChaining
