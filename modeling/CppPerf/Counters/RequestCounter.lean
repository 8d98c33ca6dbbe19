import CppPerf.Semantics.OrderedMap
import CppPerf.Semantics.Run
import CppPerf.Text.Parsing
import Mathlib.Algebra.Order.Ring.Int

/-! The two request counters of `requestCounter.cpp`. The clock is part of a
call. A loop has no result when its rounds are used up, and neither has an
`int` that overflows. -/
namespace CppPerf.Counters

open Ordered Transition CppPerf.Text

structure Count where
  time : Int
  count : Int

/-- A sum of `int`s. -/
def plus (x y : Int) : Option Int := if fitsInt (x + y) then some (x + y) else none

/-- `std::accumulate` from the value given. -/
def accumulate (counts : List Int) (start : Int) : Option Int := counts.foldlM plus start

/-- The front of the deque comes first. -/
structure RequestCounter where
  counts : List Count := []

namespace RequestCounter

/-- The loop only ends with an empty deque. -/
def remove_old : (rounds : Nat) → (counts : List Count) → (time : Int) → Option (List Count)
  | 0, _, _ => none
  | rounds + 1, counts, time =>
      match counts with
      | [] => some []
      | front :: rest =>
          if front.time + 60 < time then remove_old rounds rest time
          else remove_old rounds (front :: rest) time

def Increment (rounds : Nat) (c : RequestCounter) (now : Int) : Option RequestCounter := do
  let counts ← remove_old rounds c.counts now
  match counts.getLast? with
  | none => some ⟨[⟨now, 1⟩]⟩
  | some back =>
      if back.time < now then some ⟨counts ++ [⟨now, 1⟩]⟩
      else do
        let count ← plus back.count 1
        some ⟨counts.dropLast ++ [{ back with count := count }]⟩

def Get60sCount (rounds : Nat) (c : RequestCounter) (now : Int) :
    Option (RequestCounter × Int) := do
  let counts ← remove_old rounds c.counts now
  let sum ← accumulate (counts.map Count.count) 0
  some (⟨counts⟩, sum)

end RequestCounter

structure RequestCounter2 where
  counts : OrderedMap Int Int := OrderedMap.empty

namespace RequestCounter2

def Increment (c : RequestCounter2) (now : Int) : Option RequestCounter2 := do
  let count ← plus ((c.counts.lookup now).getD 0) 1
  some ⟨c.counts.set now count⟩

/-- The position that is looked up is not used. -/
def Get60sCount (c : RequestCounter2) (now : Int) : Option Int :=
  let _found := c.counts.lowerBound (now - 60)
  accumulate (c.counts.entries.map Prod.snd) 0

end RequestCounter2

inductive Call where
  | Increment
  | Get60sCount

/-- What both counters answered, and what they had to. -/
structure Answer where
  first : Int
  second : Int
  expected : Int

structure Session where
  first : RequestCounter := {}
  second : RequestCounter2 := {}
  past : List Int := []
  answers : List Answer := []

/-- The calls of `Increment` in the last minute. -/
def window (past : List Int) (now : Int) : Int := (past.filter (now - 60 ≤ ·)).length

/-- Both counters are called at the same time. -/
def step (rounds : Nat) : Step Session (Call × Int)
  | s, (.Increment, now) => do
      let first ← s.first.Increment rounds now
      let second ← s.second.Increment now
      some { s with first := first, second := second, past := now :: s.past }
  | s, (.Get60sCount, now) => do
      let (first, sum) ← s.first.Get60sCount rounds now
      let sum2 ← s.second.Get60sCount now
      some { s with
        first := first, answers := ⟨sum, sum2, window s.past now⟩ :: s.answers }

/-- Every call ends, and every answer is the number of calls in the window. -/
def Agree (calls : List (Call × Int)) : Prop :=
  ∃ rounds finish, run (step rounds) {} calls = some finish ∧
    ∀ a ∈ finish.answers, a.first = a.expected ∧ a.second = a.expected

/-! When the counters agree. Only calls that come more than a minute after every
`Increment` end, and `RequestCounter2` never forgets an `Increment`. -/

/-- A loop that ends has thrown everything away. -/
theorem remove_old_eq_some {rounds : Nat} {counts rest : List Count} {time : Int}
    (h : RequestCounter.remove_old rounds counts time = some rest) :
    rest = [] ∧ ∀ c ∈ counts, c.time + 60 < time := by
  induction rounds generalizing counts with
  | zero => cases h
  | succ rounds ih =>
      cases counts with
      | nil =>
          obtain rfl : [] = rest := Option.some.inj h
          simp
      | cons front back =>
          rw [RequestCounter.remove_old] at h
          split_ifs at h with hOld
          · obtain ⟨hRest, hBack⟩ := ih h
            exact ⟨hRest, List.forall_mem_cons.mpr ⟨hOld, hBack⟩⟩
          · exact absurd ((ih h).2 front (by simp)) hOld

theorem remove_old_of_old {rounds : Nat} {counts : List Count} {time : Int}
    (hOld : ∀ c ∈ counts, c.time + 60 < time) (hRounds : counts.length < rounds) :
    RequestCounter.remove_old rounds counts time = some [] := by
  induction rounds generalizing counts with
  | zero => omega
  | succ rounds ih =>
      cases counts with
      | nil => rfl
      | cons front back =>
          obtain ⟨hFront, hBack⟩ := List.forall_mem_cons.mp hOld
          rw [List.length_cons] at hRounds
          rw [RequestCounter.remove_old, if_pos hFront]
          exact ih hBack (by omega)

/-- A sum of ones is at least the number it starts from. -/
theorem accumulate_ones {counts : List Int} (h : ∀ c ∈ counts, c = 1) {start sum : Int}
    (hSum : accumulate counts start = some sum) : sum = start + counts.length := by
  induction counts generalizing start with
  | nil =>
      obtain rfl : start = sum := Option.some.inj hSum
      simp
  | cons c rest ih =>
      obtain ⟨rfl, hRest⟩ := List.forall_mem_cons.mp h
      simp only [accumulate, List.foldlM_cons, Option.bind_eq_bind, Option.bind_eq_some_iff] at hSum
      obtain ⟨next, hNext, hTail⟩ := hSum
      have hPlus : start + 1 = next := by
        rw [plus] at hNext
        split_ifs at hNext
        exact Option.some.inj hNext
      rw [ih hRest hTail, List.length_cons]
      omega

/-- The deque has the last call only, the map has all of them, each of a second
of its own. -/
structure Spread (s : Session) : Prop where
  first_eq : s.first.counts = (s.past.head?.map fun t => ⟨t, 1⟩).toList
  ordered : s.past.Pairwise fun later earlier => earlier + 60 < later
  second_eq : ∀ e ∈ s.second.counts.entries, e.1 ∈ s.past ∧ e.2 = 1
  second_some : s.past ≠ [] → s.second.counts.entries ≠ []

/-- What may be called after the calls of `Increment` so far. -/
def Allowed (past : List Int) (call : Call × Int) : Prop :=
  ∀ t ∈ past, call.1 = .Increment ∧ t + 60 < call.2

variable {s t : Session} {rounds : Nat} {now : Int}

/-- The last call is the latest one. -/
theorem Spread.first_old (h : Spread s) :
    (∀ c ∈ s.first.counts, c.time + 60 < now) ↔ ∀ t ∈ s.past, t + 60 < now := by
  have hOrdered := h.ordered
  rw [h.first_eq]
  cases hPast : s.past with
  | nil => simp
  | cons last rest =>
      rw [hPast, List.pairwise_cons] at hOrdered
      simp only [List.head?_cons, Option.map_some, Option.toList_some, List.mem_cons,
        forall_eq_or_imp, List.not_mem_nil, false_implies, implies_true, and_true]
      constructor
      · intro hLast
        refine ⟨hLast, fun t ht => ?_⟩
        have hEarlier := hOrdered.1 t ht
        omega
      · intro hAll
        exact hAll.1

/-- The state after an `Increment` that has thrown everything away. -/
def Session.counted (s : Session) (now : Int) : Session :=
  { s with
    first := ⟨[⟨now, 1⟩]⟩, second := ⟨s.second.counts.set now 1⟩, past := now :: s.past }

theorem Spread.increment (h : Spread s) (hOld : ∀ t ∈ s.past, t + 60 < now)
    (hRemove : RequestCounter.remove_old rounds s.first.counts now = some []) :
    step rounds s (.Increment, now) = some (s.counted now) := by
  have hLookup : s.second.counts.lookup now = none := by
    rw [OrderedMap.lookup_eq_none_iff]
    intro v hMem
    have hPast := hOld now (h.second_eq _ hMem).1
    omega
  have hSecond : s.second.Increment now = some ⟨s.second.counts.set now 1⟩ := by
    rw [RequestCounter2.Increment, hLookup]
    rfl
  have hFirst : s.first.Increment rounds now = some ⟨[⟨now, 1⟩]⟩ := by
    rw [RequestCounter.Increment, hRemove]
    rfl
  simp only [step, hFirst, hSecond, Option.bind_eq_bind, Option.bind_some, Session.counted]

theorem Spread.counted (h : Spread s) (hOld : ∀ t ∈ s.past, t + 60 < now) :
    Spread (s.counted now) where
  first_eq := rfl
  ordered := List.pairwise_cons.mpr ⟨hOld, h.ordered⟩
  second_eq e he := by
    simp only [Session.counted, OrderedMap.mem_set] at he
    rcases he with rfl | ⟨hOther, _⟩
    · exact ⟨List.mem_cons_self, rfl⟩
    · obtain ⟨hPast, hOne⟩ := h.second_eq e hOther
      exact ⟨List.mem_cons_of_mem _ hPast, hOne⟩
  second_some _ := by
    have hMem : (now, 1) ∈ (s.counted now).second.counts.entries := by
      simp [Session.counted]
    exact List.ne_nil_of_mem hMem

/-- Reading before the first `Increment` changes nothing. -/
theorem Spread.read (h : Spread s) (hPast : s.past = []) :
    step (rounds + 1) s (.Get60sCount, now) =
      some { s with answers := ⟨0, 0, 0⟩ :: s.answers } := by
  have hCounts : s.first.counts = [] := by rw [h.first_eq, hPast]; rfl
  have hEntries : s.second.counts.entries = [] := by
    rw [List.eq_nil_iff_forall_not_mem]
    intro e he
    have hMem := (h.second_eq e he).1
    rw [hPast] at hMem
    cases hMem
  have hFirst : s.first.Get60sCount (rounds + 1) now = some (s.first, 0) := by
    obtain ⟨⟨counts⟩, second, past, answers⟩ := s
    obtain rfl : counts = [] := hCounts
    rfl
  have hSecond : s.second.Get60sCount now = some 0 := by
    rw [RequestCounter2.Get60sCount, hEntries]
    rfl
  simp only [step, hFirst, hSecond, Option.bind_eq_bind, Option.bind_some, hPast]
  rfl

/-- A step that is not allowed does not end, or counts what is too old. -/
theorem Spread.allowed_of_step (h : Spread s) {call : Call × Int}
    (hStep : step rounds s call = some t)
    (hRight : ∀ a ∈ t.answers, a.first = a.expected ∧ a.second = a.expected) :
    Allowed s.past call := by
  obtain ⟨call, now⟩ := call
  cases call with
  | Increment =>
      simp only [step, RequestCounter.Increment, Option.bind_eq_bind, Option.bind_eq_some_iff]
        at hStep
      obtain ⟨first, ⟨counts, hRemove, _⟩, _⟩ := hStep
      have hOld := h.first_old.mp (remove_old_eq_some hRemove).2
      exact fun t ht => ⟨rfl, hOld t ht⟩
  | Get60sCount =>
      simp only [step, RequestCounter.Get60sCount, Option.bind_eq_bind, Option.bind_eq_some_iff,
        Option.some.injEq] at hStep
      obtain ⟨⟨first, sum⟩, ⟨counts, hRemove, sum', hSum, hPair⟩, sum2, hSum2, rfl⟩ := hStep
      have hOld := h.first_old.mp (remove_old_eq_some hRemove).2
      have hWindow : window s.past now = 0 := by
        have hNone : s.past.filter (now - 60 ≤ ·) = [] := by
          rw [List.filter_eq_nil_iff]
          intro t ht
          have hLt := hOld t ht
          simp only [decide_eq_true_eq]
          omega
        rw [window, hNone]
        rfl
      have hOnes : ∀ c ∈ s.second.counts.entries.map Prod.snd, c = 1 := by
        intro c hc
        obtain ⟨e, he, rfl⟩ := List.mem_map.mp hc
        exact (h.second_eq e he).2
      have hLength := accumulate_ones hOnes hSum2
      have hAnswer := (hRight _ List.mem_cons_self).2
      simp only [hWindow, List.length_map] at hAnswer hLength
      have hPast : s.past = [] := by
        by_contra hSome
        have hPos := List.length_pos_iff.mpr (h.second_some hSome)
        omega
      rw [hPast]
      intro t ht
      cases ht

/-- An `Increment` leaves room for calls after a minute only. -/
def Apart (earlier later : Call × Int) : Prop :=
  earlier.1 = .Increment → later.1 = .Increment ∧ earlier.2 + 60 < later.2

/-- What an allowed call does, whatever the bound of its loop. -/
theorem Spread.step_cases (h : Spread s) {call : Call × Int} (hAllowed : Allowed s.past call)
    (hRounds : 2 ≤ rounds ∨ (step rounds s call).isSome) :
    ∃ t, step rounds s call = some t ∧ Spread t ∧
      (∀ next, Allowed t.past next ↔ Apart call next ∧ Allowed s.past next) ∧
      ∀ a ∈ t.answers, a ∈ s.answers ∨ a.first = a.expected ∧ a.second = a.expected := by
  obtain ⟨call, now⟩ := call
  cases call with
  | Increment =>
      have hOld : ∀ t ∈ s.past, t + 60 < now := fun t ht => (hAllowed t ht).2
      have hRemove : RequestCounter.remove_old rounds s.first.counts now = some [] := by
        rcases hRounds with hRounds | hStep
        · apply remove_old_of_old (h.first_old.mpr hOld)
          rw [h.first_eq]
          cases s.past.head? with
          | none =>
              rw [Option.map_none, Option.toList_none, List.length_nil]
              omega
          | some last =>
              rw [Option.map_some, Option.toList_some, List.length_singleton]
              omega
        · obtain ⟨t, hStep⟩ := Option.isSome_iff_exists.mp hStep
          simp only [step, RequestCounter.Increment, Option.bind_eq_bind,
            Option.bind_eq_some_iff] at hStep
          obtain ⟨_, ⟨counts, hCounts, _⟩, _⟩ := hStep
          rw [hCounts, (remove_old_eq_some hCounts).1]
      refine ⟨_, h.increment hOld hRemove, h.counted hOld, ?_, fun a ha => Or.inl ha⟩
      intro next
      simp only [Allowed, Apart, Session.counted, List.forall_mem_cons, forall_const]
  | Get60sCount =>
      have hPast : s.past = [] := by
        rw [List.eq_nil_iff_forall_not_mem]
        intro t ht
        cases (hAllowed t ht).1
      obtain ⟨rounds, rfl⟩ : ∃ n, rounds = n + 1 := by
        rcases hRounds with hRounds | hStep
        · exact Nat.exists_eq_succ_of_ne_zero (by omega)
        · cases rounds with
          | zero => cases hStep
          | succ n => exact ⟨n, rfl⟩
      refine ⟨_, h.read hPast, ⟨h.first_eq, h.ordered, h.second_eq, h.second_some⟩, ?_, ?_⟩
      · simp [Apart]
      · intro a ha
        rcases List.mem_cons.mp ha with rfl | ha
        · exact Or.inr ⟨rfl, rfl⟩
        · exact Or.inl ha

/-- Right answers stay, and wrong ones stay as well. -/
theorem answers_subset {call : Call × Int} (hStep : step rounds s call = some t) :
    ∀ a ∈ s.answers, a ∈ t.answers := by
  obtain ⟨call, now⟩ := call
  cases call with
  | Increment =>
      simp only [step, Option.bind_eq_bind, Option.bind_eq_some_iff, Option.some.injEq] at hStep
      obtain ⟨_, _, _, _, rfl⟩ := hStep
      exact fun a ha => ha
  | Get60sCount =>
      simp only [step, Option.bind_eq_bind, Option.bind_eq_some_iff, Option.some.injEq] at hStep
      obtain ⟨_, _, _, _, rfl⟩ := hStep
      exact fun a ha => List.mem_cons_of_mem _ ha

theorem answers_subset_run {calls : List (Call × Int)} {finish : Session}
    (hRun : run (step rounds) s calls = some finish) : ∀ a ∈ s.answers, a ∈ finish.answers := by
  induction calls generalizing s with
  | nil =>
      obtain rfl : s = finish := Option.some.inj hRun
      exact fun a ha => ha
  | cons call rest ih =>
      obtain ⟨next, hNext, hRest⟩ := run_cons_eq_some hRun
      exact fun a ha => ih hRest a (answers_subset hNext a ha)

/-- From a spread state on, the calls must be allowed and apart. -/
theorem Spread.run_right (h : Spread s) (calls : List (Call × Int)) {finish : Session}
    (hRun : run (step rounds) s calls = some finish)
    (hRight : ∀ a ∈ finish.answers, a.first = a.expected ∧ a.second = a.expected) :
    (∀ call ∈ calls, Allowed s.past call) ∧ calls.Pairwise Apart := by
  induction calls generalizing s with
  | nil => simp
  | cons call rest ih =>
      obtain ⟨next, hNext, hRest⟩ := run_cons_eq_some hRun
      have hAllowed := h.allowed_of_step hNext fun a ha => hRight a (answers_subset_run hRest a ha)
      obtain ⟨t, hStep, hSpread, hPast, _⟩ := h.step_cases hAllowed (Or.inr (by rw [hNext]; rfl))
      obtain rfl : t = next := Option.some.inj (hStep.symm.trans hNext)
      obtain ⟨hCalls, hApart⟩ := ih hSpread hRest
      refine ⟨List.forall_mem_cons.mpr ⟨hAllowed, ?_⟩, List.pairwise_cons.mpr ⟨?_, hApart⟩⟩
      · exact fun call hCall => ((hPast call).mp (hCalls call hCall)).2
      · exact fun call hCall => ((hPast call).mp (hCalls call hCall)).1

theorem Spread.exists_run (h : Spread s)
    (hRight : ∀ a ∈ s.answers, a.first = a.expected ∧ a.second = a.expected)
    (calls : List (Call × Int)) (hAllowed : ∀ call ∈ calls, Allowed s.past call)
    (hApart : calls.Pairwise Apart) :
    ∃ finish, run (step 2) s calls = some finish ∧
      ∀ a ∈ finish.answers, a.first = a.expected ∧ a.second = a.expected := by
  induction calls generalizing s with
  | nil => exact ⟨s, rfl, hRight⟩
  | cons call rest ih =>
      obtain ⟨hCall, hRest⟩ := List.forall_mem_cons.mp hAllowed
      obtain ⟨hFirst, hLater⟩ := List.pairwise_cons.mp hApart
      obtain ⟨t, hStep, hSpread, hPast, hAnswers⟩ := h.step_cases hCall (Or.inl (Nat.le_refl 2))
      have hRightNext : ∀ a ∈ t.answers, a.first = a.expected ∧ a.second = a.expected :=
        fun a ha => (hAnswers a ha).elim (hRight a) id
      obtain ⟨finish, hRun, hFinish⟩ := ih hSpread hRightNext
        (fun next hNext => (hPast next).mpr ⟨hFirst next hNext, hRest next hNext⟩) hLater
      exact ⟨finish, by rw [run_cons, hStep, Option.bind_some, hRun], hFinish⟩

theorem spread_start : Spread {} := ⟨rfl, List.Pairwise.nil, by simp [OrderedMap.empty], by simp⟩

/-- The counters agree exactly if every call after an `Increment` is another one
more than a minute later. -/
theorem agree_iff (calls : List (Call × Int)) :
    Agree calls ↔ calls.Pairwise fun earlier later =>
      earlier.1 = .Increment → later.1 = .Increment ∧ earlier.2 + 60 < later.2 := by
  constructor
  · intro h
    obtain ⟨rounds, finish, hRun, hRight⟩ := h
    exact (spread_start.run_right calls hRun hRight).2
  · intro hApart
    have hAllowed : ∀ call ∈ calls, Allowed ({} : Session).past call := by simp [Allowed]
    obtain ⟨finish, hRun, hRight⟩ := spread_start.exists_run (by simp) calls hAllowed hApart
    exact ⟨2, finish, hRun, hRight⟩

/-- A second call in the same minute does not end, and after the minute the
second counter still counts the first one. -/
theorem not_agree_minute :
    ¬Agree [(.Increment, 0), (.Increment, 0)] ∧ ¬Agree [(.Increment, 0), (.Get60sCount, 61)] := by
  constructor
  · rintro ⟨rounds, finish, hRun, hRight⟩
    have hApart := (spread_start.run_right _ hRun hRight).2
    simp [Apart] at hApart
  · rintro ⟨rounds, finish, hRun, hRight⟩
    have hApart := (spread_start.run_right _ hRun hRight).2
    simp [Apart] at hApart

end CppPerf.Counters
