import Mathlib.Data.List.Induction
import Mathlib.Data.Option.Basic
import Mathlib.Tactic.Common

/-! Finite runs of a partial deterministic step. A step that is undefined in
a state has no outgoing run. Whatever the environment chooses (the outcome of
an allocation, the order of the callers) is part of the input of a step. -/
namespace Transition

variable {State Input Spec : Type*}

abbrev Step (State Input : Type*) := State → Input → Option State

/-- Feed the inputs, oldest first. An undefined step ends the run. -/
def run (step : Step State Input) : State → List Input → Option State
  | start, [] => some start
  | start, input :: rest => (step start input).bind fun next => run step next rest

/-- The property holds in the start state and in every state the run reaches. -/
def Always (step : Step State Input) (P : State → Prop) : State → List Input → Prop
  | start, [] => P start
  | start, input :: rest =>
      P start ∧ ∀ next, step start input = some next → Always step P next rest

/-- Every step of the run is taken in a state, and on an input, that meets
the guard. The guard sees the state before the step only. -/
def Guarded (step : Step State Input) (guard : State → Input → Prop) :
    State → List Input → Prop
  | _, [] => True
  | start, input :: rest =>
      guard start input ∧ ∀ next, step start input = some next → Guarded step guard next rest

instance decidableGuarded (step : Step State Input) (guard : State → Input → Prop)
    [∀ s i, Decidable (guard s i)] :
    (start : State) → (inputs : List Input) → Decidable (Guarded step guard start inputs)
  | _, [] => isTrue trivial
  | start, input :: rest =>
      have : Decidable (∀ next, step start input = some next → Guarded step guard next rest) :=
        match step start input with
        | none => isTrue fun _ h => nomatch h
        | some next =>
            have := decidableGuarded step guard next rest
            decidable_of_iff (Guarded step guard next rest)
              ⟨fun h _ hNext => Option.some.inj hNext ▸ h, fun h => h next rfl⟩
      inferInstanceAs (Decidable (_ ∧ _))

@[simp] theorem run_nil (step : Step State Input) (start : State) :
    run step start [] = some start := rfl

@[simp] theorem run_cons (step : Step State Input) (start : State) (input : Input)
    (rest : List Input) :
    run step start (input :: rest) = (step start input).bind fun next => run step next rest := rfl

/-- Two consecutive runs are one run of the concatenated inputs. -/
theorem run_append (step : Step State Input) (start : State) (first second : List Input) :
    run step start (first ++ second) =
      (run step start first).bind fun middle => run step middle second := by
  induction first generalizing start with
  | nil => rfl
  | cons input rest ih =>
      simp only [List.cons_append, run_cons, Option.bind_assoc]
      congr 1
      funext next
      exact ih next

/-- A step with a guard is taken where the guard holds. -/
theorem of_ite_eq_some {guard : Prop} [Decidable guard] {s t : State}
    (h : (if guard then some s else none) = some t) : guard ∧ s = t := by
  obtain ⟨hGuard, hEq⟩ := Option.ite_none_right_eq_some.mp h
  exact ⟨hGuard, Option.some.inj hEq⟩

/-- A successful nonempty run has a first step and a remaining run. -/
theorem run_cons_eq_some {step : Step State Input} {start finish : State} {input : Input}
    {rest : List Input} (hRun : run step start (input :: rest) = some finish) :
    ∃ next, step start input = some next ∧ run step next rest = some finish := by
  simpa [Option.bind_eq_some_iff] using hRun

/-- An invariant that guarded steps preserve holds in every state of a
guarded run. -/
theorem always_of_guarded {step : Step State Input} {guard : State → Input → Prop}
    {Inv : State → Prop}
    (hStep : ∀ s i t, Inv s → guard s i → step s i = some t → Inv t)
    {start : State} {inputs : List Input} (hInv : Inv start)
    (hGuard : Guarded step guard start inputs) : Always step Inv start inputs := by
  induction inputs generalizing start with
  | nil => exact hInv
  | cons input rest ih =>
      refine ⟨hInv, fun next hNext => ih ?_ (hGuard.2 next hNext)⟩
      exact hStep start input next hInv hGuard.1 hNext

theorem always_of_invariant {step : Step State Input} {Inv : State → Prop}
    (hStep : ∀ s i t, Inv s → step s i = some t → Inv t)
    {start : State} (inputs : List Input) (hInv : Inv start) :
    Always step Inv start inputs := by
  induction inputs generalizing start with
  | nil => exact hInv
  | cons input rest ih => exact ⟨hInv, fun next hNext => ih (hStep _ _ _ hInv hNext)⟩

/-- Steps that are defined from every invariant state, and keep the
invariant, never end a run early. -/
theorem run_of_invariant {step : Step State Input} {Inv : State → Prop}
    (hStep : ∀ s i, Inv s → ∃ t, step s i = some t ∧ Inv t)
    {start : State} (inputs : List Input) (hInv : Inv start) :
    ∃ finish, run step start inputs = some finish ∧ Inv finish := by
  induction inputs generalizing start with
  | nil => exact ⟨start, rfl, hInv⟩
  | cons input rest ih =>
      obtain ⟨next, hNext, hKeep⟩ := hStep start input hInv
      obtain ⟨finish, hRest, hLast⟩ := ih hKeep
      exact ⟨finish, by rw [run_cons, hNext, Option.bind_some, hRest], hLast⟩

/-- A step has one outcome. -/
theorem of_exists_step {step : Step State Input} {Inv : State → Prop} {s t : State} {i : Input}
    (h : ∃ next, step s i = some next ∧ Inv next) (hStep : step s i = some t) : Inv t := by
  obtain ⟨next, hNext, hInv⟩ := h
  rw [hStep] at hNext
  rwa [Option.some.inj hNext]

/-- Guarded steps that are defined from every invariant state. -/
theorem run_of_guarded {step : Step State Input} {guard : State → Input → Prop}
    {Inv : State → Prop}
    (hStep : ∀ s i, Inv s → guard s i → ∃ t, step s i = some t ∧ Inv t)
    {start : State} {inputs : List Input} (hInv : Inv start)
    (hGuard : Guarded step guard start inputs) :
    ∃ finish, run step start inputs = some finish ∧ Inv finish := by
  induction inputs generalizing start with
  | nil => exact ⟨start, rfl, hInv⟩
  | cons input rest ih =>
      obtain ⟨next, hNext, hKeep⟩ := hStep start input hInv hGuard.1
      obtain ⟨finish, hRest, hLast⟩ := ih hKeep (hGuard.2 next hNext)
      exact ⟨finish, by rw [run_cons, hNext, Option.bind_some, hRest], hLast⟩

/-- Steps that follow a total abstract machine never end a run early, and end
where that machine does. -/
theorem run_of_simulation {step : Step State Input} {spec : Spec → Input → Spec}
    {R : State → Spec → Prop}
    (hStep : ∀ s v i, R s v → ∃ t, step s i = some t ∧ R t (spec v i))
    {start : State} {v : Spec} (inputs : List Input) (hStart : R start v) :
    ∃ finish, run step start inputs = some finish ∧ R finish (inputs.foldl spec v) := by
  induction inputs generalizing start v with
  | nil => exact ⟨start, rfl, hStart⟩
  | cons input rest ih =>
      obtain ⟨next, hNext, hKeep⟩ := hStep start v input hStart
      obtain ⟨finish, hRest, hLast⟩ := ih hKeep
      exact ⟨finish, by rw [run_cons, hNext, Option.bind_some, hRest], hLast⟩

/-- The same for guarded steps. -/
theorem run_of_guarded_simulation {step : Step State Input} {guard : State → Input → Prop}
    {spec : Spec → Input → Spec} {R : State → Spec → Prop}
    (hStep : ∀ s v i, R s v → guard s i → ∃ t, step s i = some t ∧ R t (spec v i))
    {start : State} {v : Spec} {inputs : List Input} (hStart : R start v)
    (hGuard : Guarded step guard start inputs) :
    ∃ finish, run step start inputs = some finish ∧ R finish (inputs.foldl spec v) := by
  induction inputs generalizing start v with
  | nil => exact ⟨start, rfl, hStart⟩
  | cons input rest ih =>
      obtain ⟨next, hNext, hKeep⟩ := hStep start v input hStart hGuard.1
      obtain ⟨finish, hRest, hLast⟩ := ih hKeep (hGuard.2 next hNext)
      exact ⟨finish, by rw [run_cons, hNext, Option.bind_some, hRest], hLast⟩

/-- A guard on the inputs alone. -/
theorem guarded_of_forall {step : Step State Input} {guard : State → Input → Prop}
    {inputs : List Input} (h : ∀ i ∈ inputs, ∀ s, guard s i) (start : State) :
    Guarded step guard start inputs := by
  induction inputs generalizing start with
  | nil => trivial
  | cons input rest ih =>
      obtain ⟨hFirst, hRest⟩ := List.forall_mem_cons.mp h
      exact ⟨hFirst start, fun next _ => ih hRest next⟩

theorem rel_map {A B C D : Type*} {R : A → B → Prop} {R' : C → D → Prop} {a : Option A}
    {b : Option B} (h : Option.Rel R a b) {f : A → C} {g : B → D}
    (hMap : ∀ x y, R x y → R' (f x) (g y)) : Option.Rel R' (a.map f) (b.map g) := by
  cases h with
  | none => exact .none
  | some h => exact .some (hMap _ _ h)

theorem map_eq_of_rel {A B C : Type*} {R : A → B → Prop} {a : Option A} {b : Option B}
    (h : Option.Rel R a b) {f : A → C} {g : B → C} (hMap : ∀ x y, R x y → f x = g y) :
    a.map f = b.map g := by
  cases h with
  | none => rfl
  | some h => exact congrArg some (hMap _ _ h)

/-- Steps that are defined where those of another machine are, and keep the states related, make
runs of which this is true. -/
theorem run_rel {step : Step State Input} {spec : Step Spec Input} {R : State → Spec → Prop}
    (hStep : ∀ s v i, R s v → Option.Rel R (step s i) (spec v i))
    {start : State} {v : Spec} (inputs : List Input) (hStart : R start v) :
    Option.Rel R (run step start inputs) (run spec v inputs) := by
  induction inputs generalizing start v with
  | nil => exact .some hStart
  | cons input rest ih =>
      have hNext := hStep start v input hStart
      rw [run_cons, run_cons]
      cases hState : step start input with
      | none =>
          cases hSpec : spec v input with
          | none => exact .none
          | some _ =>
              rw [hState, hSpec] at hNext
              cases hNext
      | some next =>
          cases hSpec : spec v input with
          | none =>
              rw [hState, hSpec] at hNext
              cases hNext
          | some _ =>
              rw [hState, hSpec] at hNext
              cases hNext with
              | some hKeep => exact ih hKeep

/-- What relates a state to the inputs so far relates the end of a run to all
of them. -/
theorem run_of_history {step : Step State Input} {valid : Input → Prop}
    {R : State → List Input → Prop}
    (hStep : ∀ s seen i, R s seen → valid i → ∃ t, step s i = some t ∧ R t (seen ++ [i]))
    {start : State} (hStart : R start []) {inputs : List Input}
    (hValid : ∀ i ∈ inputs, valid i) :
    ∃ finish, run step start inputs = some finish ∧ R finish inputs := by
  induction inputs using List.reverseRecOn with
  | nil => exact ⟨start, rfl, hStart⟩
  | append_singleton seen last ih =>
      obtain ⟨s, hRun, hKeep⟩ := ih fun i hi => hValid i (List.mem_append_left _ hi)
      obtain ⟨finish, hNext, hLast⟩ := hStep s seen last hKeep (hValid last (by simp))
      refine ⟨finish, ?_, hLast⟩
      rw [run_append, hRun, Option.bind_some, run_cons, hNext]
      rfl

/-- Steps that are defined everywhere never end a run early. -/
theorem run_of_total {step : Step State Input} (hTotal : ∀ s i, (step s i).isSome)
    (start : State) (inputs : List Input) : ∃ finish, run step start inputs = some finish := by
  have hStep : ∀ s i, True → ∃ t, step s i = some t ∧ True := by
    intro s i _
    obtain ⟨t, ht⟩ := Option.isSome_iff_exists.mp (hTotal s i)
    exact ⟨t, ht, trivial⟩
  have hStart : (fun _ : State => True) start := trivial
  obtain ⟨finish, hRun, _⟩ := run_of_invariant hStep inputs hStart
  exact ⟨finish, hRun⟩

theorem Always.mono {step : Step State Input} {P Q : State → Prop}
    (hImp : ∀ s, P s → Q s) {start : State} {inputs : List Input}
    (h : Always step P start inputs) : Always step Q start inputs := by
  induction inputs generalizing start with
  | nil => exact hImp _ h
  | cons input rest ih => exact ⟨hImp _ h.1, fun next hNext => ih (h.2 next hNext)⟩

theorem Always.start {step : Step State Input} {P : State → Prop} {start : State}
    {inputs : List Input} (h : Always step P start inputs) : P start := by
  cases inputs with
  | nil => exact h
  | cons input rest => exact h.1

/-- What holds in every state of a run holds in its last one. -/
theorem Always.finish {step : Step State Input} {P : State → Prop} {start finish : State}
    {inputs : List Input} (h : Always step P start inputs)
    (hRun : run step start inputs = some finish) : P finish := by
  induction inputs generalizing start with
  | nil =>
      obtain rfl : start = finish := by simpa using hRun
      exact h
  | cons input rest ih =>
      obtain ⟨next, hNext, hRest⟩ := run_cons_eq_some hRun
      exact ih (h.2 next hNext) hRest

/-- A property that every unguarded step breaks holds throughout guarded runs
only. The run must not end early: a step that is undefined breaks nothing. -/
theorem guarded_of_always {step : Step State Input} {guard : State → Input → Prop}
    {Inv P : State → Prop}
    (hStep : ∀ s i t, Inv s → guard s i → step s i = some t → Inv t)
    (hBreaks : ∀ s i t, Inv s → ¬guard s i → step s i = some t → ¬P t)
    {start finish : State} {inputs : List Input} (hInv : Inv start)
    (hRun : run step start inputs = some finish) (h : Always step P start inputs) :
    Guarded step guard start inputs := by
  induction inputs generalizing start with
  | nil => exact trivial
  | cons input rest ih =>
      obtain ⟨next, hNext, hRest⟩ := run_cons_eq_some hRun
      have hGuard : guard start input := by
        by_contra hNot
        exact hBreaks start input next hInv hNot hNext (h.2 next hNext).start
      refine ⟨hGuard, fun t ht => ?_⟩
      obtain rfl : t = next := Option.some.inj (ht.symm.trans hNext)
      exact ih (hStep start input t hInv hGuard ht) hRest (h.2 t ht)

/-- An unguarded step does damage that stays. A run that ends undamaged is
guarded. -/
theorem guarded_of_finish {step : Step State Input} {guard : State → Input → Prop}
    {Inv Damaged : State → Prop}
    (hStep : ∀ s i t, Inv s → guard s i → step s i = some t → Inv t)
    (hBreaks : ∀ s i t, Inv s → ¬guard s i → step s i = some t → Damaged t)
    (hStays : ∀ s i t, Damaged s → step s i = some t → Damaged t)
    {start finish : State} {inputs : List Input} (hInv : Inv start)
    (hRun : run step start inputs = some finish) (hSound : ¬Damaged finish) :
    Guarded step guard start inputs := by
  induction inputs generalizing start with
  | nil => exact trivial
  | cons input rest ih =>
      obtain ⟨next, hNext, hRest⟩ := run_cons_eq_some hRun
      have hGuard : guard start input := by
        by_contra hNot
        have hDamaged := hBreaks start input next hInv hNot hNext
        exact hSound ((always_of_invariant hStays rest hDamaged).finish hRest)
      refine ⟨hGuard, fun t ht => ?_⟩
      obtain rfl : t = next := Option.some.inj (ht.symm.trans hNext)
      exact ih (hStep start input t hInv hGuard ht) hRest

/-- The guard is the exact condition: guarded steps keep an invariant that
implies the property, and an unguarded step from an invariant state breaks
the property at once. The property then holds throughout a run if and only
if every step of the run is guarded. -/
theorem always_iff_guarded {step : Step State Input} {guard : State → Input → Prop}
    (Inv : State → Prop) {P : State → Prop}
    (hStep : ∀ s i t, Inv s → guard s i → step s i = some t → Inv t)
    (hHolds : ∀ s, Inv s → P s)
    (hBreaks : ∀ s i t, Inv s → ¬guard s i → step s i = some t → ¬P t)
    {start finish : State} {inputs : List Input} (hInv : Inv start)
    (hRun : run step start inputs = some finish) :
    Always step P start inputs ↔ Guarded step guard start inputs := by
  constructor
  · intro h
    exact guarded_of_always hStep hBreaks hInv hRun h
  · intro h
    exact (always_of_guarded hStep hInv h).mono hHolds

end Transition
