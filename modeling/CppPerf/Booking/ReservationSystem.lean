import CppPerf.Booking.Schedule

/-! `ReservationSystem`, which keeps a schedule for each restaurant and day and
the reservations of each user. `take_reservation` moves the name of the user
into the schedule and then stores the reservation under what is left of it. A
string that was moved from is empty. -/
namespace CppPerf.Booking

open Indexed Transition

structure Date where
  year : Int := 0
  month : Int := 0
  day : Int := 0
deriving DecidableEq

/-- `ReservationSystem::Reservation`. -/
structure SystemReservation where
  start_time : Int
  people : Int
  checkedIn : Bool := false
  restaurant : String
  date : Date

/-- The schedule of a whole day, which `operator[]` creates. -/
def Schedule.default : Schedule := (Schedule.construct 0 (24 * 60)).get rfl

/-- A map that has no entry for a user, or for a restaurant of the user, is
read like one whose entry is empty. -/
structure ReservationSystem where
  all_schedule : String → Date → Schedule
  all_reservations : String → String → Date → Option SystemReservation

namespace ReservationSystem

def initial : ReservationSystem := ⟨fun _ _ => .default, fun _ _ _ => none⟩

def setSchedule (r : ReservationSystem) (restaurant : String) (date : Date) (s : Schedule) :
    ReservationSystem :=
  { r with
    all_schedule := Function.update r.all_schedule restaurant
      (Function.update (r.all_schedule restaurant) date s) }

def setReservation (r : ReservationSystem) (user restaurant : String) (date : Date)
    (reservation : SystemReservation) : ReservationSystem :=
  { r with
    all_reservations := Function.update r.all_reservations user
      (Function.update (r.all_reservations user) restaurant
        (Function.update (r.all_reservations user restaurant) date (some reservation))) }

/-- What is left of a string that was moved from. -/
def moved (_user : String) : String := ""

/-- The result is `none` where the function ends without a `return`. -/
def take_reservation (r : ReservationSystem) (user : String) (start_time people : Int)
    (date : Date) (restaurant : String) : Option (ReservationSystem × Option Bool) :=
  ((r.all_schedule restaurant date).take_reservation user start_time people).map fun result =>
    let r := r.setSchedule restaurant date result.1
    if result.2 = false then (r, some false)
    else
      (r.setReservation (moved user) restaurant date { start_time, people, restaurant, date },
        none)

def checkin (r : ReservationSystem) (user : String) (date : Date) (restaurant : String) :
    ReservationSystem × Bool :=
  match r.all_reservations user restaurant date with
  | none => (r, false)
  | some reservation =>
      (r.setReservation user restaurant date { reservation with checkedIn := true }, true)

/-- The two arguments are of type `int`. -/
inductive Call where
  | take_reservation (user : String) (start_time people : Int32) (date : Date)
      (restaurant : String)
  | checkin (user : String) (date : Date) (restaurant : String)

/-- A system, and the reservations that a schedule has accepted. -/
structure World where
  r : ReservationSystem
  accepted : List (String × Date × String)

namespace World

def step (w : World) : Call → Option World
  | .take_reservation user start_time people date restaurant =>
      (w.r.take_reservation user start_time.toInt people.toInt date restaurant).map fun result =>
        ⟨result.1,
          if result.2 = some false then w.accepted else (user, date, restaurant) :: w.accepted⟩
  | .checkin user date restaurant => some { w with r := (w.r.checkin user date restaurant).1 }

def initial : World := ⟨.initial, []⟩

/-- `checkin` finds exactly what was accepted. -/
def ChecksIn (w : World) : Prop :=
  ∀ user date restaurant,
    (w.r.checkin user date restaurant).2 = true ↔ (user, date, restaurant) ∈ w.accepted

/-- The schedule has the tables for the request. -/
def HasRoom (s : Schedule) (start_time people : Int) : Prop :=
  s.time_to_slot start_time + 6 < s.schedule.size ∧
    s.Window (Schedule.ceil_int people Schedule.persons_per_table)
      (s.time_to_slot start_time).toNat

/-- Whoever gets a reservation has no name. -/
def Nameless (w : World) : Call → Prop
  | .take_reservation user start_time people date restaurant =>
      HasRoom (w.r.all_schedule restaurant date) start_time.toInt people.toInt → user = ""
  | .checkin _ _ _ => True

/-- Every schedule is one for the whole day. -/
def Opens (w : World) : Prop :=
  ∀ restaurant date, (w.r.all_schedule restaurant date).open_time = 0

/-- The invariant. -/
structure Stored (w : World) : Prop where
  opens : w.Opens
  nameless : ∀ triple ∈ w.accepted, triple.1 = ""
  checksIn : w.ChecksIn

variable {w w' : World}

theorem checkin_iff {r : ReservationSystem} {user : String} {date : Date} {restaurant : String} :
    (r.checkin user date restaurant).2 = true ↔
      (r.all_reservations user restaurant date).isSome := by
  rw [checkin]
  cases r.all_reservations user restaurant date with
  | none => exact iff_of_false Bool.false_ne_true Bool.false_ne_true
  | some reservation => exact iff_of_true rfl rfl

theorem checksIn_iff :
    w.ChecksIn ↔ ∀ user date restaurant, (w.r.all_reservations user restaurant date).isSome ↔
      (user, date, restaurant) ∈ w.accepted := by
  simp only [ChecksIn, checkin_iff]

theorem all_schedule_setSchedule (r : ReservationSystem) (restaurant : String) (date : Date)
    (s : Schedule) (restaurant' : String) (date' : Date) :
    (r.setSchedule restaurant date s).all_schedule restaurant' date' =
      if restaurant' = restaurant ∧ date' = date then s else r.all_schedule restaurant' date' := by
  have hPair := congrFun (Function.uncurry_update_update r.all_schedule restaurant date s)
    (restaurant', date')
  simp only [Function.update_apply (Function.uncurry r.all_schedule), Prod.mk.injEq] at hPair
  exact hPair

theorem all_reservations_setReservation (r : ReservationSystem) (user restaurant : String)
    (date : Date) (reservation : SystemReservation) (user' restaurant' : String) (date' : Date) :
    (r.setReservation user restaurant date reservation).all_reservations user' restaurant' date' =
      if user' = user ∧ restaurant' = restaurant ∧ date' = date then some reservation
      else r.all_reservations user' restaurant' date' := by
  let dates := Function.update (r.all_reservations user restaurant) date (some reservation)
  have hPair := congrFun (Function.uncurry_update_update r.all_reservations user restaurant dates)
    (user', restaurant')
  have hDate := congrFun (Function.uncurry_update_update (Function.uncurry r.all_reservations)
    (user, restaurant) date (some reservation)) ((user', restaurant'), date')
  simp only [Function.update_apply (Function.uncurry (Function.uncurry r.all_reservations)),
    Prod.mk.injEq, and_assoc] at hDate
  exact (congrFun hPair date').trans hDate

theorem Opens.setSchedule (h : w.Opens) (restaurant : String) (date : Date) {s : Schedule}
    (hNew : s.open_time = 0) (restaurant' : String) (date' : Date) :
    ((w.r.setSchedule restaurant date s).all_schedule restaurant' date').open_time = 0 := by
  rw [all_schedule_setSchedule]
  split_ifs
  · exact hNew
  · exact h restaurant' date'

/-- A schedule that opens at midnight has a slot for every time. -/
theorem time_to_slot_nonneg {s : Schedule} (hOpens : s.open_time = 0) (start_time : Int32) :
    0 ≤ s.time_to_slot start_time.toInt := by
  have hHigh := Int32.toInt_lt start_time
  rw [Schedule.time_to_slot, hOpens, sub_zero]
  split_ifs with hEarly
  · exact le_rfl
  · have hSame : int start_time.toInt = start_time.toInt := Int.bmod_eq_of_le (by omega) (by omega)
    rw [hSame]
    exact Int.tdiv_nonneg (not_lt.mp hEarly) (by decide)

/-- What the schedule decides. -/
theorem take_cases {s : Schedule} (hOpens : s.open_time = 0) (user : String)
    (start_time people : Int32) :
    (HasRoom s start_time.toInt people.toInt ∧
      ∃ s', s.take_reservation user start_time.toInt people.toInt = some (s', true) ∧
        s'.open_time = 0) ∨
    (¬HasRoom s start_time.toInt people.toInt ∧
      s.take_reservation user start_time.toInt people.toInt = some (s, false)) := by
  have hSlot := time_to_slot_nonneg hOpens start_time
  rw [Schedule.take_reservation, Schedule.takeAt, if_neg (not_lt.mpr hSlot)]
  split_ifs with hLate hTables
  · exact Or.inr ⟨fun hRoom => absurd hRoom.1 (not_lt.mpr hLate), rfl⟩
  · refine Or.inl ⟨⟨not_le.mp hLate, ?_⟩, _, rfl, hOpens⟩
    exact (Schedule.hasTables_iff 6 _).mp hTables
  · exact Or.inr ⟨fun hRoom => hTables ((Schedule.hasTables_iff 6 _).mpr hRoom.2), rfl⟩

theorem Stored.checkin (h : w.Stored) (user : String) (date : Date) (restaurant : String) :
    ({ w with r := (w.r.checkin user date restaurant).1 } : World).Stored := by
  rw [ReservationSystem.checkin]
  cases hFound : w.r.all_reservations user restaurant date with
  | none => exact h
  | some reservation =>
      refine ⟨h.opens, h.nameless, checksIn_iff.mpr fun user' date' restaurant' => ?_⟩
      rw [all_reservations_setReservation, ← checksIn_iff.mp h.checksIn]
      split_ifs with hSame
      · obtain ⟨rfl, rfl, rfl⟩ := hSame
        rw [hFound]
        exact iff_of_true rfl rfl
      · exact Iff.rfl

/-- A refused request changes nothing that `checkin` looks at. -/
theorem Stored.refuse (h : w.Stored) (restaurant : String) (date : Date) :
    (⟨w.r.setSchedule restaurant date (w.r.all_schedule restaurant date), w.accepted⟩ :
      World).Stored :=
  ⟨h.opens.setSchedule restaurant date (h.opens restaurant date), h.nameless,
    checksIn_iff.mpr fun user' date' restaurant' =>
      checksIn_iff.mp h.checksIn user' date' restaurant'⟩

variable {user restaurant : String} {start_time people : Int32} {date : Date}

/-- Without a name the reservation is stored where `checkin` looks for it. -/
theorem Stored.accept (h : w.Stored) {s : Schedule} (hOpens : s.open_time = 0)
    (reservation : SystemReservation) :
    (⟨(w.r.setSchedule restaurant date s).setReservation "" restaurant date reservation,
      ("", date, restaurant) :: w.accepted⟩ : World).Stored := by
  refine ⟨h.opens.setSchedule restaurant date hOpens, fun triple hTriple => ?_,
    checksIn_iff.mpr fun user' date' restaurant' => ?_⟩
  · rcases List.mem_cons.mp hTriple with rfl | hOld
    · rfl
    · exact h.nameless triple hOld
  · have hBefore := checksIn_iff.mp h.checksIn user' date' restaurant'
    rw [all_reservations_setReservation, List.mem_cons, ← hBefore, Prod.mk.injEq, Prod.mk.injEq]
    split_ifs with hSame
    · exact iff_of_true rfl (Or.inl ⟨hSame.1, hSame.2.2, hSame.2.1⟩)
    · refine (or_iff_right ?_).symm
      rintro ⟨hUser, hDate, hRestaurant⟩
      exact hSame ⟨hUser, hRestaurant, hDate⟩

/-- What a call of `take_reservation` does to the system. -/
theorem Opens.take_cases (h : w.Opens)
    (hStep : w.step (.take_reservation user start_time people date restaurant) = some w') :
    (HasRoom (w.r.all_schedule restaurant date) start_time.toInt people.toInt ∧
      ∃ s reservation, s.open_time = 0 ∧
        w' = ⟨(w.r.setSchedule restaurant date s).setReservation "" restaurant date reservation,
          (user, date, restaurant) :: w.accepted⟩) ∨
    (¬HasRoom (w.r.all_schedule restaurant date) start_time.toInt people.toInt ∧
      w' = ⟨w.r.setSchedule restaurant date (w.r.all_schedule restaurant date), w.accepted⟩) := by
  rw [step, take_reservation] at hStep
  rcases World.take_cases (h restaurant date) user start_time people with
    ⟨hRoom, s, hTake, hOpens⟩ | ⟨hNoRoom, hTake⟩
  · rw [hTake] at hStep
    obtain rfl := Option.some.inj hStep
    exact Or.inl ⟨hRoom, s, _, hOpens, rfl⟩
  · rw [hTake] at hStep
    obtain rfl := Option.some.inj hStep
    exact Or.inr ⟨hNoRoom, rfl⟩

theorem Stored.step (h : w.Stored) {call : Call} (hGuard : w.Nameless call)
    (hStep : w.step call = some w') : w'.Stored := by
  cases call with
  | take_reservation user start_time people date restaurant =>
      rcases h.opens.take_cases hStep with ⟨hRoom, s, reservation, hOpens, rfl⟩ | ⟨_, rfl⟩
      · obtain rfl := hGuard hRoom
        exact h.accept hOpens reservation
      · exact h.refuse restaurant date
  | checkin user date restaurant =>
      obtain rfl := Option.some.inj hStep
      exact h.checkin user date restaurant

/-- A user with a name does not get the reservation. -/
theorem Stored.not_checksIn (h : w.Stored) {call : Call} (hBad : ¬w.Nameless call)
    (hStep : w.step call = some w') : ¬w'.ChecksIn := by
  cases call with
  | checkin user date restaurant => exact absurd trivial hBad
  | take_reservation user start_time people date restaurant =>
      rw [Nameless, Classical.not_imp] at hBad
      obtain ⟨hRoom, hName⟩ := hBad
      rcases h.opens.take_cases hStep with ⟨_, s, reservation, _, rfl⟩ | ⟨hNoRoom, _⟩
      · intro hChecksIn
        have hFound := (checksIn_iff.mp hChecksIn user date restaurant).mpr List.mem_cons_self
        rw [all_reservations_setReservation, if_neg fun hSame => hName hSame.1] at hFound
        have hOld := (checksIn_iff.mp h.checksIn user date restaurant).mp hFound
        exact hName (h.nameless _ hOld)
      · exact absurd hRoom hNoRoom

theorem initial_stored : initial.Stored := by
  refine ⟨fun _ _ => rfl, fun triple hTriple => absurd hTriple List.not_mem_nil, ?_⟩
  intro user date restaurant
  exact iff_of_false Bool.false_ne_true List.not_mem_nil

theorem Opens.step (h : w.Opens) (call : Call) : ∃ w', w.step call = some w' ∧ w'.Opens := by
  cases call with
  | take_reservation user start_time people date restaurant =>
      have hSome : ∃ w', w.step (.take_reservation user start_time people date restaurant) =
          some w' := by
        rw [World.step, ReservationSystem.take_reservation]
        rcases World.take_cases (h restaurant date) user start_time people with
          ⟨_, s, hTake, _⟩ | ⟨_, hTake⟩
        · exact ⟨_, by rw [hTake]; rfl⟩
        · exact ⟨_, by rw [hTake]; rfl⟩
      obtain ⟨w', hStep⟩ := hSome
      refine ⟨w', hStep, ?_⟩
      rcases h.take_cases hStep with ⟨_, s, reservation, hOpens, rfl⟩ | ⟨_, rfl⟩
      · exact h.setSchedule restaurant date hOpens
      · exact h.setSchedule restaurant date (h restaurant date)
  | checkin user date restaurant =>
      refine ⟨_, rfl, ?_⟩
      rw [ReservationSystem.checkin]
      cases w.r.all_reservations user restaurant date with
      | none => exact h
      | some reservation => exact h

/-- Everybody can check in throughout a run if and only if all who get a
reservation in it have no name. -/
theorem checksIn_iff_nameless (calls : List Call) :
    Always World.step ChecksIn initial calls ↔ Guarded World.step Nameless initial calls := by
  have hOpens : initial.Opens := initial_stored.opens
  obtain ⟨finish, hRun, _⟩ := run_of_invariant (fun _ call h => Opens.step h call) calls hOpens
  exact always_iff_guarded Stored (fun _ _ _ h hGuard hStep => h.step hGuard hStep)
    (fun _ h => h.checksIn) (fun _ _ _ h hBad hStep => h.not_checksIn hBad hStep)
    initial_stored hRun

/-- An accepted reservation is not found under the name of its user, but under
no name. -/
theorem reservation_not_found :
    ∃ w, run World.step initial [.take_reservation "me" 0 4 {} "diner"] = some w ∧
      w.accepted = [("me", {}, "diner")] ∧ (w.r.checkin "me" {} "diner").2 = false ∧
      (w.r.checkin "" {} "diner").2 = true ∧ ¬w.ChecksIn := by
  have hFinish : ∃ w, run World.step initial [.take_reservation "me" 0 4 {} "diner"] = some w ∧
      w.accepted = [("me", {}, "diner")] ∧ (w.r.checkin "me" {} "diner").2 = false ∧
      (w.r.checkin "" {} "diner").2 = true := ⟨_, rfl, rfl, rfl, rfl⟩
  obtain ⟨w, hRun, hAccepted, hNotFound, hFound⟩ := hFinish
  refine ⟨w, hRun, hAccepted, hNotFound, hFound, fun hChecksIn => ?_⟩
  have hMine := (hChecksIn "me" {} "diner").mpr (by rw [hAccepted]; exact List.mem_cons_self)
  rw [hNotFound] at hMine
  cases hMine

end World
end ReservationSystem
end CppPerf.Booking
