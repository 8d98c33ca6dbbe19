import CppPerf.Semantics.Run
import CppPerf.Semantics.Vec
import Mathlib.Algebra.Ring.Int.Defs
import Mathlib.Data.Int.Order.Basic
import Mathlib.Data.List.Pairwise
import Mathlib.Order.Basic

/-! The restaurant schedule of `ReservationSystem.cpp`. The tables in use are
stored as differences from one quarter of an hour to the next. An `int` that
overflows wraps around. -/
namespace CppPerf.Booking

open Indexed

/-- What an `int` keeps of a number. -/
def int (x : Int) : Int := x.bmod (2 ^ 32)

structure Reservation where
  start_time : Int
  people : Int
  checkedIn : Bool := false

structure Schedule where
  open_time : Int
  schedule : Vec Int
  reservations : String → Option Reservation

namespace Schedule

def tables : Int := 10

def persons_per_table : Int := 4

/-- A negative size is refused by the vector. -/
def construct (open_time close : Int) : Option Schedule :=
  let size := (int (close - open_time)).tdiv 15 + 1
  if size < 0 then none else some ⟨open_time, ⟨size.toNat, fun _ => 0⟩, fun _ => none⟩

def time_to_slot (s : Schedule) (min : Int) : Int :=
  if min < s.open_time then 0 else (int (min - s.open_time)).tdiv 15

def ceil_int (num denom : Int) : Int := (int (num + denom - 1)).tdiv denom

/-- The loop that sums up `schedule[0]` to `schedule[n - 1]`. -/
def sumBefore (s : Schedule) : Nat → Int
  | 0 => 0
  | n + 1 => int (s.sumBefore n + s.schedule.get n)

/-- The loop over the next `n` slots. -/
def hasTables (s : Schedule) (tables_needed : Int) : Nat → Nat → Int → Bool
  | 0, _, _ => true
  | n + 1, i, sum =>
      let sum := int (sum + s.schedule.get i)
      if int (sum + tables_needed) > tables then false
      else hasTables s tables_needed n (i + 1) sum

/-- The tables are in use from slot `i` on, for six slots. -/
def book (s : Schedule) (i : Nat) (tables_needed : Int) (user : String)
    (reservation : Reservation) : Schedule :=
  let schedule := s.schedule.set i (int (s.schedule.get i + tables_needed))
  { s with
    schedule := schedule.set (i + 6) (int (schedule.get (i + 6) - tables_needed))
    reservations := Function.update s.reservations user (some reservation) }

/-- `take_reservation` once the slot is known. A negative slot is outside of
the vector, and has no result. -/
def takeAt (s : Schedule) (slot : Int) (user : String) (start_time people : Int) :
    Option (Schedule × Bool) :=
  if slot + 6 ≥ s.schedule.size then some (s, false)
  else if slot < 0 then none
  else if s.hasTables (ceil_int people persons_per_table) 6 slot.toNat
      (s.sumBefore slot.toNat) then
    some
      (s.book slot.toNat (ceil_int people persons_per_table) user { start_time, people }, true)
  else some (s, false)

def take_reservation (s : Schedule) (user : String) (start_time people : Int) :
    Option (Schedule × Bool) :=
  s.takeAt (s.time_to_slot start_time) user start_time people

/-- The loop over `n` slots from `i` on. -/
def scan (s : Schedule) (tables_needed : Int) : Nat → Nat → Int → Int → List Int → List Int
  | 0, _, _, _, alternate => alternate
  | n + 1, i, sum, good_start, alternate =>
      let sum := int (sum + s.schedule.get i)
      if int (sum + tables_needed) > tables then
        scan s tables_needed n (i + 1) sum (-1) alternate
      else if good_start < 0 then scan s tables_needed n (i + 1) sum i alternate
      else if i - good_start = 5 then
        scan s tables_needed n (i + 1) sum (good_start + 1) (alternate ++ [good_start])
      else scan s tables_needed n (i + 1) sum good_start alternate

/-- There is no result if the sums go beyond the vector. -/
def alternate_reservation_within_2hr (s : Schedule) (_user : String)
    (start_time people : Int) : Option (List Int) :=
  let slot := s.time_to_slot start_time
  let start := max 0 (slot - 8)
  let stop := min (s.schedule.size - 1 : Int) (slot + 8 + 6)
  if start > s.schedule.size then none
  else
    some (s.scan (ceil_int people persons_per_table) (stop - start).toNat start.toNat
      (s.sumBefore start.toNat) (-1) [])

def checkin (s : Schedule) (user : String) : Schedule × Bool :=
  match s.reservations user with
  | none => (s, false)
  | some found =>
      ({ s with
         reservations :=
           Function.update s.reservations user (some { found with checkedIn := true }) },
       true)

end Schedule

/-- A call of `take_reservation`. -/
structure Request where
  user : String
  start_time : Int
  people : Int

def Schedule.step (s : Schedule) (request : Request) : Option Schedule :=
  (s.take_reservation request.user request.start_time request.people).map Prod.fst

end CppPerf.Booking

/-! The slots that are offered are the slots that would be taken. Nothing is
asked of the schedule: both loops add up the same cells in the same order. -/
namespace CppPerf.Booking.Schedule

open Indexed Transition

/-- The slot has the tables that are needed. -/
def Free (s : Schedule) (tables_needed : Int) (i : Nat) : Prop :=
  int (s.sumBefore (i + 1) + tables_needed) ≤ tables

def Window (s : Schedule) (tables_needed : Int) (a : Nat) : Prop :=
  ∀ i, a ≤ i → i < a + 6 → s.Free tables_needed i

variable {s : Schedule} {tables_needed : Int}

theorem hasTables_iff (n i : Nat) :
    s.hasTables tables_needed n i (s.sumBefore i) = true ↔
      ∀ j, i ≤ j → j < i + n → s.Free tables_needed j := by
  induction n generalizing i with
  | zero =>
      refine iff_of_true rfl fun j hLow hHigh => ?_
      omega
  | succ n ih =>
      have hSum : int (s.sumBefore i + s.schedule.get i) = s.sumBefore (i + 1) := rfl
      rw [hasTables, hSum]
      by_cases hFree : s.Free tables_needed i
      · rw [if_neg (not_lt.mpr hFree), ih]
        constructor
        · intro hRest j hLow hHigh
          rcases Nat.eq_or_lt_of_le hLow with rfl | hAfter
          · exact hFree
          · exact hRest j hAfter (by omega)
        · intro hAll j hLow hHigh
          exact hAll j (by omega) (by omega)
      · rw [if_pos (not_le.mp hFree)]
        refine iff_of_false Bool.false_ne_true fun hAll => ?_
        exact hFree (hAll i le_rfl (by omega))

/-- A slot is taken if its window ends before the last slot and is free. -/
theorem takeAt_succeeds_iff {slot : Int} {user : String} {start_time people : Int} :
    (∃ s', s.takeAt slot user start_time people = some (s', true)) ↔
      0 ≤ slot ∧ slot + 6 < s.schedule.size ∧
        s.Window (ceil_int people persons_per_table) slot.toNat := by
  rw [takeAt]
  split_ifs with hLate hNegative hTables
  · refine iff_of_false ?_ fun h => absurd h.2.1 (not_lt.mpr hLate)
    rintro ⟨s', hTaken⟩
    simp at hTaken
  · refine iff_of_false ?_ fun h => absurd hNegative (not_lt.mpr h.1)
    rintro ⟨s', hTaken⟩
    cases hTaken
  · refine iff_of_true ⟨_, rfl⟩ ⟨not_lt.mp hNegative, not_le.mp hLate, ?_⟩
    exact (hasTables_iff 6 _).mp hTables
  · refine iff_of_false ?_ fun h => hTables ((hasTables_iff 6 _).mpr h.2.2)
    rintro ⟨s', hTaken⟩
    simp at hTaken

/-- No run of free slots goes on before `g`. -/
def Begins (s : Schedule) (tables_needed : Int) (start g : Nat) : Prop :=
  g = start ∨ start < g ∧ ¬s.Free tables_needed (g - 1)

/-- A run of free slots that ends before `i`, or as much of it as the next
window takes. -/
structure RunFrom (s : Schedule) (tables_needed : Int) (start i g : Nat) : Prop where
  inside : start ≤ g
  before : g < i
  short : i ≤ g + 5
  free : ∀ j, g ≤ j → j < i → s.Free tables_needed j
  begins : i = g + 5 ∨ s.Begins tables_needed start g

/-- What `good_start` stands for before slot `i`. -/
def Run (s : Schedule) (tables_needed : Int) (start i : Nat) (good_start : Int) : Prop :=
  good_start = -1 ∧ s.Begins tables_needed start i ∨
    ∃ g : Nat, good_start = g ∧ s.RunFrom tables_needed start i g

/-- The invariant of the scan: it has found the free windows that end at `i`
or before it. -/
structure Scanned (s : Schedule) (tables_needed : Int) (start i : Nat) (good_start : Int)
    (alternate : List Int) : Prop where
  sorted : alternate.Pairwise (· < ·)
  mem : ∀ t : Int, t ∈ alternate ↔
    ∃ a : Nat, t = a ∧ start ≤ a ∧ a + 6 ≤ i ∧ s.Window tables_needed a
  run : s.Run tables_needed start i good_start

variable {start i : Nat} {good_start : Int} {alternate : List Int}

/-- The slot before a window that begins is not free, so no earlier window
reaches beyond it. -/
theorem Begins.no_window {g a : Nat} (h : s.Begins tables_needed start g) (hInside : start ≤ a)
    (hBefore : a < g) (hReach : g ≤ a + 6) : ¬s.Window tables_needed a := by
  intro hWindow
  rcases h with rfl | ⟨_, hTaken⟩
  · omega
  · exact hTaken (hWindow (g - 1) (by omega) (by omega))

/-- No window ends with slot `i`. -/
theorem Scanned.skip (h : s.Scanned tables_needed start i good_start alternate) {next : Int}
    (hNone : ∀ a, start ≤ a → a + 6 = i + 1 → ¬s.Window tables_needed a)
    (hRun : s.Run tables_needed start (i + 1) next) :
    s.Scanned tables_needed start (i + 1) next alternate := by
  refine ⟨h.sorted, fun t => ?_, hRun⟩
  rw [h.mem t]
  constructor
  · rintro ⟨a, rfl, hInside, hEnd, hWindow⟩
    exact ⟨a, rfl, hInside, by omega, hWindow⟩
  · rintro ⟨a, rfl, hInside, hEnd, hWindow⟩
    have hOther : a + 6 ≠ i + 1 := fun hSame => hNone a hInside hSame hWindow
    exact ⟨a, rfl, hInside, by omega, hWindow⟩

theorem Scanned.taken (h : s.Scanned tables_needed start i good_start alternate)
    (hTaken : ¬s.Free tables_needed i) (hInside : start ≤ i) :
    s.Scanned tables_needed start (i + 1) (-1) alternate := by
  refine h.skip (fun a _ hEnd hWindow => hTaken (hWindow i (by omega) (by omega))) ?_
  exact Or.inl ⟨rfl, Or.inr ⟨by omega, hTaken⟩⟩

theorem Scanned.begin (h : s.Scanned tables_needed start i good_start alternate)
    (hBegins : s.Begins tables_needed start i) (hFree : s.Free tables_needed i)
    (hInside : start ≤ i) : s.Scanned tables_needed start (i + 1) i alternate := by
  refine h.skip (fun a hLow hEnd => hBegins.no_window hLow (by omega) (by omega)) ?_
  refine Or.inr ⟨i, rfl, hInside, by omega, by omega, fun j hLow hHigh => ?_, Or.inr hBegins⟩
  obtain rfl : j = i := by omega
  exact hFree

theorem RunFrom.extend {g : Nat} (h : s.RunFrom tables_needed start i g)
    (hFree : s.Free tables_needed i) : ∀ j, g ≤ j → j < i + 1 → s.Free tables_needed j := by
  intro j hLow hHigh
  rcases Nat.lt_succ_iff_lt_or_eq.mp hHigh with hBefore | rfl
  · exact h.free j hLow hBefore
  · exact hFree

/-- The run is long enough, and its first slot is found. -/
theorem Scanned.found {g : Nat} (h : s.Scanned tables_needed start i good_start alternate)
    (hRun : s.RunFrom tables_needed start i g) (hFree : s.Free tables_needed i)
    (hLong : i = g + 5) :
    s.Scanned tables_needed start (i + 1) (g + 1 : Nat) (alternate ++ [(g : Int)]) := by
  have hAll := hRun.extend hFree
  have hInside := hRun.inside
  refine ⟨?_, fun t => ?_, Or.inr ⟨g + 1, rfl, by omega, by omega, by omega, ?_, Or.inl ?_⟩⟩
  · -- What was found before begins before.
    refine List.pairwise_append.mpr ⟨h.sorted, List.pairwise_singleton _ _, fun t ht t' ht' => ?_⟩
    obtain ⟨a, rfl, _, hEnd, _⟩ := (h.mem t).mp ht
    obtain rfl := List.mem_singleton.mp ht'
    omega
  · rw [List.mem_append, List.mem_singleton, h.mem t]
    constructor
    · rintro (⟨a, rfl, hLow, hEnd, hWindow⟩ | rfl)
      · exact ⟨a, rfl, hLow, by omega, hWindow⟩
      · exact ⟨g, rfl, hInside, by omega, fun j hLow hHigh => hAll j hLow (by omega)⟩
    · rintro ⟨a, rfl, hLow, hEnd, hWindow⟩
      by_cases hLast : a = g
      · exact Or.inr (congrArg _ hLast)
      · exact Or.inl ⟨a, rfl, hLow, by omega, hWindow⟩
  · intro j hLow hHigh
    exact hAll j (by omega) hHigh
  · omega

theorem Scanned.extend {g : Nat} (h : s.Scanned tables_needed start i good_start alternate)
    (hRun : s.RunFrom tables_needed start i g) (hFree : s.Free tables_needed i)
    (hShort : i ≠ g + 5) : s.Scanned tables_needed start (i + 1) g alternate := by
  have hBefore := hRun.before
  have hFew := hRun.short
  have hBegins := hRun.begins.resolve_left hShort
  refine h.skip (fun a hLow hEnd => hBegins.no_window hLow (by omega) (by omega)) ?_
  exact Or.inr ⟨g, rfl, hRun.inside, by omega, by omega, hRun.extend hFree, Or.inr hBegins⟩

/-- The whole loop. -/
theorem Scanned.scan (n : Nat) (hInside : start ≤ i)
    (h : s.Scanned tables_needed start i good_start alternate) :
    ∃ last, s.Scanned tables_needed start (i + n) last
      (s.scan tables_needed n i (s.sumBefore i) good_start alternate) := by
  induction n generalizing i good_start alternate with
  | zero => exact ⟨good_start, h⟩
  | succ n ih =>
      have hSum : int (s.sumBefore i + s.schedule.get i) = s.sumBefore (i + 1) := rfl
      rw [Schedule.scan, hSum, show i + (n + 1) = i + 1 + n by omega]
      by_cases hFree : s.Free tables_needed i
      · rw [if_neg (not_lt.mpr hFree)]
        rcases h.run with ⟨rfl, hBegins⟩ | ⟨g, rfl, hRun⟩
        · rw [if_pos (by decide)]
          exact ih (by omega) (h.begin hBegins hFree hInside)
        · rw [if_neg (by omega)]
          by_cases hLong : i = g + 5
          · rw [if_pos (by omega)]
            exact ih (by omega) (h.found hRun hFree hLong)
          · rw [if_neg (by omega)]
            exact ih (by omega) (h.extend hRun hFree hLong)
      · rw [if_pos (not_le.mp hFree)]
        exact ih (by omega) (h.taken hFree hInside)

theorem scanned_start (s : Schedule) (tables_needed : Int) (start : Nat) :
    s.Scanned tables_needed start start (-1) [] := by
  refine ⟨List.Pairwise.nil, fun t => iff_of_false List.not_mem_nil ?_, Or.inl ⟨rfl, Or.inl rfl⟩⟩
  rintro ⟨a, _, hLow, hEnd, _⟩
  omega

/-- For every request whose slot is in the schedule, the slots that are offered
are those within two hours that are taken. For a time in such a slot this is
what `take_reservation` decides. -/
def OffersWhatItTakes (s : Schedule) : Prop :=
  ∀ user start_time people, 0 ≤ s.time_to_slot start_time →
    s.time_to_slot start_time < s.schedule.size →
    ∃ alternate, s.alternate_reservation_within_2hr user start_time people = some alternate ∧
      alternate.Pairwise (· < ·) ∧
      (∀ slot, slot ∈ alternate ↔
        max 0 (s.time_to_slot start_time - 8) ≤ slot ∧ slot ≤ s.time_to_slot start_time + 8 ∧
          ∃ s', s.takeAt slot user start_time people = some (s', true)) ∧
      ∀ time, max 0 (s.time_to_slot start_time - 8) ≤ s.time_to_slot time →
        s.time_to_slot time ≤ s.time_to_slot start_time + 8 →
        (s.time_to_slot time ∈ alternate ↔
          ∃ s', s.take_reservation user time people = some (s', true))

theorem offersWhatItTakes (s : Schedule) : s.OffersWhatItTakes := by
  intro user start_time people hLow hHigh
  generalize hSlot : s.time_to_slot start_time = k at hLow hHigh ⊢
  let start := (max 0 (k - 8)).toNat
  let stop := min (s.schedule.size - 1 : Int) (k + 8 + 6)
  have hStart : (start : Int) = max 0 (k - 8) := Int.toNat_of_nonneg (le_max_left _ _)
  obtain ⟨last, hScanned⟩ := (s.scanned_start (ceil_int people persons_per_table) start).scan
    (stop - max 0 (k - 8)).toNat le_rfl
  have hMem : ∀ slot time, slot ∈ s.scan (ceil_int people persons_per_table)
      (stop - max 0 (k - 8)).toNat start (s.sumBefore start) (-1) [] ↔
      max 0 (k - 8) ≤ slot ∧ slot ≤ k + 8 ∧
        ∃ s', s.takeAt slot user time people = some (s', true) := by
    intro slot time
    rw [hScanned.mem, takeAt_succeeds_iff]
    constructor
    · rintro ⟨a, rfl, hInside, hEnd, hWindow⟩
      refine ⟨by omega, by omega, by omega, by omega, ?_⟩
      rw [Int.toNat_natCast]
      exact hWindow
    · rintro ⟨hFrom, hTo, hPos, hFits, hWindow⟩
      exact ⟨slot.toNat, by omega, by omega, by omega, hWindow⟩
  refine ⟨_, ?_, hScanned.sorted, fun slot => hMem slot start_time, fun time hFrom hTo => ?_⟩
  · rw [alternate_reservation_within_2hr, hSlot]
    exact if_neg (by omega)
  · rw [hMem _ time, and_iff_right hFrom, and_iff_right hTo, take_reservation]

/-- In every state that a run reaches. -/
theorem always_offersWhatItTakes (s : Schedule) (requests : List Request) :
    Always Schedule.step OffersWhatItTakes s requests := by
  have hReached : Always Schedule.step (fun _ => True) s requests :=
    always_of_invariant (fun _ _ _ _ _ => trivial) requests trivial
  exact hReached.mono fun s _ => s.offersWhatItTakes

end CppPerf.Booking.Schedule
