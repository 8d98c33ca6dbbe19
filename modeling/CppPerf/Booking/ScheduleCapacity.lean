import CppPerf.Booking.Schedule
import CppPerf.Semantics.DifferenceArray

/-! The schedule keeps to its ten tables as long as no `int` overflows. For
more than `2 ^ 31 - 4` people the number of tables overflows to a negative one,
and a negative number of tables is always free. -/
namespace CppPerf.Booking.Schedule

open Indexed Transition

theorem int_eq_self {x : Int} (hLow : -2 ^ 31 ≤ x) (hHigh : x < 2 ^ 31) : int x = x :=
  Int.bmod_eq_of_le (by omega) (by omega)

/-- A reservation that was accepted, with its first slot. -/
structure Accepted where
  slot : Int
  people : Int

/-- `⌈people / 4⌉`. -/
def Accepted.needed (a : Accepted) : Int := (a.people + 3) / 4

/-- The slot is one of the six of the window. -/
abbrev Accepted.Holds (t : Nat) (a : Accepted) : Prop := a.slot ≤ t ∧ (t : Int) < a.slot + 6

/-- The tables of the accepted reservations at a slot. -/
def occupied (accepted : List Accepted) (t : Nat) : Int :=
  ((accepted.filter fun a => a.Holds t).map Accepted.needed).sum

/-- A schedule and what it has accepted. The first slot of a reservation is
what `time_to_slot` computes without overflow. -/
structure World where
  s : Schedule
  accepted : List Accepted

/-- A request for at least one person, not before the opening. -/
structure Asked (open_time : Int) where
  request : Request
  people_pos : 1 ≤ request.people
  not_early : open_time ≤ request.start_time

variable {open_time : Int}

def Asked.slot (asked : Asked open_time) : Int := (asked.request.start_time - open_time) / 15

def Asked.accept (asked : Asked open_time) : Accepted := ⟨asked.slot, asked.request.people⟩

def Asked.take (asked : Asked open_time) (s : Schedule) : Option (Schedule × Bool) :=
  s.take_reservation asked.request.user asked.request.start_time asked.request.people

namespace World

def step (w : World) (asked : Asked open_time) : Option World :=
  (asked.take w.s).map fun result =>
    ⟨result.1, if result.2 then asked.accept :: w.accepted else w.accepted⟩

/-- The window does not end before the last slot, or some slot of it would
exceed the tables. -/
def Refuses (w : World) (asked : Asked open_time) : Prop :=
  w.s.schedule.size ≤ asked.slot + 6 ∨
    ∃ t : Nat, asked.accept.Holds t ∧ occupied w.accepted t + asked.accept.needed > tables

/-- The request is computed without overflow. The number of people matters
only if the window ends before the last slot. -/
def Fits (w : World) (asked : Asked open_time) : Prop :=
  asked.request.start_time - open_time < 2 ^ 31 ∧
    (asked.slot + 6 < w.s.schedule.size → asked.request.people + 3 < 2 ^ 31)

/-- The schedule stores the occupied tables, which are between 0 and 10. -/
def Stores (w : World) : Prop :=
  ∀ t, t < w.s.schedule.size → w.s.schedule.level t = occupied w.accepted t ∧
    0 ≤ occupied w.accepted t ∧ occupied w.accepted t ≤ tables

/-- Every request that fits is refused exactly if it has to be. -/
def Decides (open_time : Int) (w : World) : Prop :=
  ∀ asked : Asked open_time, w.Fits asked →
    ∃ s' accepts, asked.take w.s = some (s', accepts) ∧ (accepts = false ↔ w.Refuses asked)

/-- The invariant. -/
structure Sound (open_time : Int) (w : World) : Prop where
  opens : w.s.open_time = open_time
  stores : w.Stores

variable {w w' : World}

theorem occupied_cons (a : Accepted) (accepted : List Accepted) (t : Nat) :
    occupied (a :: accepted) t = occupied accepted t + if a.Holds t then a.needed else 0 := by
  rw [occupied, List.filter_cons, occupied]
  by_cases hHolds : a.Holds t
  · rw [if_pos hHolds, if_pos (decide_eq_true hHolds), List.map_cons, List.sum_cons, add_comm]
  · rw [if_neg hHolds, if_neg (by simpa using hHolds), add_zero]

/-- The running sum is the level, as long as the levels fit. -/
theorem sumBefore_succ {s : Schedule} {t : Nat}
    (hRange : ∀ i ≤ t, 0 ≤ s.schedule.level i ∧ s.schedule.level i ≤ tables) :
    s.sumBefore (t + 1) = s.schedule.level t := by
  have hInt : ∀ i ≤ t, int (s.schedule.level i) = s.schedule.level i := by
    intro i hi
    obtain ⟨hLow, hHigh⟩ := hRange i hi
    rw [tables] at hHigh
    exact int_eq_self (by omega) (by omega)
  induction t with
  | zero =>
      rw [sumBefore, sumBefore, zero_add, ← Vec.level_zero]
      exact hInt 0 le_rfl
  | succ t ih =>
      rw [sumBefore, ih (fun i hi => hRange i (by omega)) (fun i hi => hInt i (by omega)),
        ← Vec.level_succ]
      exact hInt (t + 1) le_rfl

theorem Sound.level_range (h : w.Sound open_time) {t : Nat} (ht : t < w.s.schedule.size) :
    0 ≤ w.s.schedule.level t ∧ w.s.schedule.level t ≤ tables := by
  obtain ⟨hLevel, hLow, hHigh⟩ := h.stores t ht
  rw [hLevel]
  exact ⟨hLow, hHigh⟩

/-- A cell is the difference of two levels. -/
theorem Sound.cell_range (h : w.Sound open_time) {t : Nat} (ht : t < w.s.schedule.size) :
    -tables ≤ w.s.schedule.get t ∧ w.s.schedule.get t ≤ tables := by
  have hHere := h.level_range ht
  cases t with
  | zero =>
      rw [Vec.level_zero, tables] at hHere
      rw [tables]
      omega
  | succ t =>
      have hBefore := h.level_range (Nat.lt_of_succ_lt ht)
      rw [Vec.level_succ, tables] at hHere
      rw [tables] at hBefore ⊢
      omega

variable {asked : Asked open_time}

theorem slot_nonneg (asked : Asked open_time) : 0 ≤ asked.slot := by
  have hEarly := asked.not_early
  rw [Asked.slot]
  omega

theorem needed_accept (asked : Asked open_time) :
    asked.accept.needed = (asked.request.people + 3) / 4 := rfl

theorem holds_accept {t : Nat} :
    asked.accept.Holds t ↔ asked.slot.toNat ≤ t ∧ t < asked.slot.toNat + 6 := by
  have hSlot : asked.accept.slot = asked.slot := rfl
  have hPos : 0 ≤ asked.slot := slot_nonneg asked
  rw [Accepted.Holds, hSlot]
  omega

theorem needed_pos (asked : Asked open_time) : 1 ≤ asked.accept.needed := by
  have hPeople := asked.people_pos
  rw [needed_accept]
  omega

theorem Sound.time_to_slot_eq (h : w.Sound open_time)
    (hFits : asked.request.start_time - open_time < 2 ^ 31) :
    w.s.time_to_slot asked.request.start_time = asked.slot := by
  have hEarly := asked.not_early
  rw [time_to_slot, h.opens, if_neg (not_lt.mpr hEarly), int_eq_self (by omega) hFits, Asked.slot]
  exact Int.tdiv_eq_ediv_of_nonneg (by omega)

theorem ceil_int_eq (hFits : asked.request.people + 3 < 2 ^ 31) :
    ceil_int asked.request.people persons_per_table = asked.accept.needed := by
  have hPeople := asked.people_pos
  rw [ceil_int, persons_per_table, int_eq_self (by omega) (by omega),
    Int.tdiv_eq_ediv_of_nonneg (by omega), needed_accept]
  congr 1
  omega

/-- The test of the loop, without overflow. -/
theorem Sound.free_iff (h : w.Sound open_time) {t : Nat} (ht : t < w.s.schedule.size) {n : Int}
    (hPos : 1 ≤ n) (hSmall : n < 2 ^ 30) :
    w.s.Free n t ↔ occupied w.accepted t + n ≤ tables := by
  obtain ⟨hLevel, hLow, hHigh⟩ := h.stores t ht
  rw [tables] at hHigh
  rw [Free, sumBefore_succ (fun i hi => h.level_range (by omega)), hLevel,
    int_eq_self (by omega) (by omega)]

theorem Sound.hasTables_iff (h : w.Sound open_time)
    (hInside : asked.slot + 6 < w.s.schedule.size) (hPeople : asked.request.people + 3 < 2 ^ 31) :
    w.s.hasTables (ceil_int asked.request.people persons_per_table) 6 asked.slot.toNat
      (w.s.sumBefore asked.slot.toNat) = true ↔ ¬w.Refuses asked := by
  have hPos := needed_pos asked
  have hSmall : asked.accept.needed < 2 ^ 30 := by
    rw [needed_accept]
    omega
  have hFree : ∀ t, asked.accept.Holds t → (w.s.Free asked.accept.needed t ↔
      occupied w.accepted t + asked.accept.needed ≤ tables) := by
    intro t ht
    obtain ⟨_, hHigh⟩ := holds_accept.mp ht
    have hSlot := slot_nonneg asked
    exact h.free_iff (by omega) hPos hSmall
  rw [Schedule.hasTables_iff, ceil_int_eq hPeople, Refuses, not_or, not_exists]
  constructor
  · intro hAll
    refine ⟨not_le.mpr hInside, fun t ⟨hHolds, hFull⟩ => ?_⟩
    obtain ⟨hLow, hHigh⟩ := holds_accept.mp hHolds
    exact absurd ((hFree t hHolds).mp (hAll t hLow hHigh)) (not_le.mpr hFull)
  · rintro ⟨_, hNone⟩ t hLow hHigh
    have hHolds := holds_accept.mpr ⟨hLow, hHigh⟩
    exact (hFree t hHolds).mpr (not_lt.mp fun hFull => hNone t ⟨hHolds, hFull⟩)

theorem Sound.take_refused (h : w.Sound open_time) (hFits : w.Fits asked)
    (hRefuses : w.Refuses asked) : asked.take w.s = some (w.s, false) := by
  rw [Asked.take, take_reservation, h.time_to_slot_eq hFits.1, takeAt]
  by_cases hLate : w.s.schedule.size ≤ asked.slot + 6
  · exact if_pos hLate
  · have hInside := not_le.mp hLate
    have hTables := (h.hasTables_iff hInside (hFits.2 hInside)).not.mpr (not_not.mpr hRefuses)
    rw [if_neg hLate, if_neg (not_lt.mpr (slot_nonneg asked)), if_neg hTables]

theorem Sound.take_accepted (h : w.Sound open_time) (hFits : w.Fits asked)
    (hAccepts : ¬w.Refuses asked) :
    asked.take w.s =
      some (w.s.book asked.slot.toNat asked.accept.needed asked.request.user
        { start_time := asked.request.start_time, people := asked.request.people }, true) := by
  have hInside : asked.slot + 6 < w.s.schedule.size :=
    not_le.mp fun hLate => hAccepts (Or.inl hLate)
  have hPeople := hFits.2 hInside
  have hTables := (h.hasTables_iff hInside hPeople).mpr hAccepts
  rw [Asked.take, take_reservation, h.time_to_slot_eq hFits.1, takeAt, if_neg (not_le.mpr hInside),
    if_neg (not_lt.mpr (slot_nonneg asked)), if_pos hTables, ceil_int_eq hPeople]

theorem Sound.decides (h : w.Sound open_time) : w.Decides open_time := by
  intro asked hFits
  by_cases hRefuses : w.Refuses asked
  · exact ⟨_, _, h.take_refused hFits hRefuses, iff_of_true rfl hRefuses⟩
  · exact ⟨_, _, h.take_accepted hFits hRefuses, iff_of_false Bool.true_eq_false.mp hRefuses⟩

/-- The two cells that change do not overflow. -/
theorem Sound.schedule_book (h : w.Sound open_time) {i : Nat} {n : Int} (user : String)
    (reservation : Reservation) (hInside : i + 6 < w.s.schedule.size) (hPos : 0 ≤ n)
    (hSmall : n ≤ tables) :
    (w.s.book i n user reservation).schedule = w.s.schedule.raise i (i + 6) n := by
  obtain ⟨hLow, hHigh⟩ := h.cell_range (t := i) (by omega)
  obtain ⟨hLow', hHigh'⟩ := h.cell_range hInside
  rw [tables] at *
  rw [book, Vec.raise, int_eq_self (by omega) (by omega)]
  dsimp only
  rw [Vec.get_set_of_ne _ _ (by omega : i + 6 ≠ i), int_eq_self (by omega) (by omega)]

theorem Sound.accept (h : w.Sound open_time) (hAccepts : ¬w.Refuses asked) (user : String)
    (reservation : Reservation) :
    (⟨w.s.book asked.slot.toNat asked.accept.needed user reservation,
      asked.accept :: w.accepted⟩ : World).Sound open_time := by
  have hInside : asked.slot + 6 < w.s.schedule.size :=
    not_le.mp fun hLate => hAccepts (Or.inl hLate)
  have hSlot := slot_nonneg asked
  have hPos := needed_pos asked
  have hRoom : ∀ t, asked.accept.Holds t →
      occupied w.accepted t + asked.accept.needed ≤ tables := by
    intro t ht
    exact not_lt.mp fun hFull => hAccepts (Or.inr ⟨t, ht, hFull⟩)
  have hSmall : asked.accept.needed ≤ tables := by
    obtain ⟨_, hLow, _⟩ := h.stores asked.slot.toNat (by omega)
    have hFirst := hRoom asked.slot.toNat (holds_accept.mpr ⟨le_rfl, by omega⟩)
    omega
  have hBook := h.schedule_book user reservation (i := asked.slot.toNat) (by omega)
    (zero_le_one.trans hPos) hSmall
  refine ⟨h.opens, fun t ht => ?_⟩
  change t < (w.s.book _ _ user reservation).schedule.size at ht
  rw [hBook, Vec.size_raise] at ht
  obtain ⟨hLevel, hLow, hHigh⟩ := h.stores t ht
  dsimp only
  rw [hBook, Vec.level_raise _ (by omega), hLevel, occupied_cons,
    if_congr holds_accept.symm rfl rfl]
  refine ⟨rfl, ?_⟩
  by_cases hHolds : asked.accept.Holds t
  · have hFits := hRoom t hHolds
    rw [if_pos hHolds]
    omega
  · rw [if_neg hHolds, add_zero]
    exact ⟨hLow, hHigh⟩

theorem Sound.step (h : w.Sound open_time) (hFits : w.Fits asked)
    (hStep : w.step asked = some w') : w'.Sound open_time := by
  by_cases hRefuses : w.Refuses asked
  · rw [World.step, h.take_refused hFits hRefuses] at hStep
    obtain rfl := Option.some.inj hStep
    exact h
  · rw [World.step, h.take_accepted hFits hRefuses] at hStep
    obtain rfl := Option.some.inj hStep
    exact h.accept hRefuses _ _

/-- Nobody has asked yet. -/
def opened (s : Schedule) : World := ⟨s, []⟩

theorem opened_sound {s : Schedule} {close : Int}
    (hConstruct : construct open_time close = some s) : (opened s).Sound open_time := by
  rw [construct] at hConstruct
  split_ifs at hConstruct
  obtain rfl := Option.some.inj hConstruct
  refine ⟨rfl, fun t _ => ?_⟩
  have hLevel : ∀ size, (⟨size, fun _ => 0⟩ : Vec Int).level t = 0 := fun _ => Finset.sum_const_zero
  exact ⟨hLevel _, le_rfl, Int.zero_le_ofNat 10⟩

/-- In every run whose requests all fit, the schedule stores the occupied
tables, and requests are decided by the tables that are left. -/
theorem always_stores_of_fits {s : Schedule} {close : Int}
    (hConstruct : construct open_time close = some s) {asked : List (Asked open_time)}
    (hFits : Guarded World.step Fits (opened s) asked) :
    Always World.step (fun w => w.Stores ∧ w.Decides open_time) (opened s) asked := by
  have hSound := always_of_guarded (fun _ _ _ h hFits hStep => Sound.step h hFits hStep)
    (opened_sound hConstruct) hFits
  exact hSound.mono fun w h => ⟨h.stores, h.decides⟩

def ask (people : Int) (h : 1 ≤ people) : Asked 0 := ⟨⟨"me", 0, people⟩, h, le_rfl⟩

/-- Forty people fill the tables of a day. -/
theorem forty_people_fit :
    ∃ s, construct 0 330 = some s ∧
      Always World.step (fun w => w.Stores ∧ w.Decides 0) (opened s) [ask 40 (by decide)] := by
  have hConstruct : ∃ s, construct 0 330 = some s := ⟨_, rfl⟩
  obtain ⟨s, hConstruct⟩ := hConstruct
  refine ⟨s, hConstruct, always_stores_of_fits hConstruct ⟨⟨?_, fun _ => ?_⟩, fun _ _ => trivial⟩⟩
  · exact (by decide : (0 : Int) - 0 < 2 ^ 31)
  · exact (by decide : (40 : Int) + 3 < 2 ^ 31)

/-- More people than there are tables for in any restaurant are accepted. -/
theorem crowd_accepted :
    ∃ s w, construct 0 330 = some s ∧
      run World.step (opened s) [ask 2147483647 (by decide)] = some w ∧
      w.accepted = [⟨0, 2147483647⟩] ∧ w.s.schedule.level 0 = -536870911 ∧ ¬w.Stores := by
  have hFinish : ∃ s w, construct 0 330 = some s ∧
      run World.step (opened s) [ask 2147483647 (by decide)] = some w ∧
      w.accepted = [⟨0, 2147483647⟩] ∧ w.s.schedule.size = 23 ∧
      w.s.schedule.level 0 = -536870911 :=
    ⟨_, _, rfl, rfl, rfl, rfl, by decide⟩
  obtain ⟨s, w, hConstruct, hRun, hAccepted, hSize, hLevel⟩ := hFinish
  refine ⟨s, w, hConstruct, hRun, hAccepted, hLevel, fun hStores => ?_⟩
  obtain ⟨hSame, hLow, _⟩ := hStores 0 (by omega)
  omega

end World
end CppPerf.Booking.Schedule
