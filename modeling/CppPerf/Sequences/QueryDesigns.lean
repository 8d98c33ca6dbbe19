import CppPerf.Semantics.OrderedSet
import CppPerf.Semantics.Run
import Mathlib.Algebra.Order.Group.Unbundled.Int
import Mathlib.Data.List.Pairwise
import Mathlib.Data.List.Sort

/-! The classes of `leetcodecpp.cpp` that answer one query after the other: `ExamRoom`,
`KthLargest` and `RLEIterator`. -/
namespace CppPerf.Sequences

open Transition

/-- The seats that are taken are kept in increasing order. -/
structure ExamRoom where
  seats : Int
  seating : List Int
deriving DecidableEq

namespace ExamRoom

def construct (N : Int) : ExamRoom := ⟨N, []⟩

/-- The loop of `findSeat` over the elements behind `startPos`. -/
def gapLoop : (rest : List Int) → (startPos distMax pos : Int) → Int
  | [], _, _, pos => pos
  | start :: rest, startPos, distMax, pos =>
      let dist := (start - startPos).tdiv 2
      if dist > distMax ∨ dist = distMax ∧ startPos + dist < pos then
        gapLoop rest start dist (startPos + dist)
      else gapLoop rest start distMax pos

/-- There is no first element of an empty set. -/
def findSeat (room : ExamRoom) : Option Int :=
  match room.seating with
  | [] => none
  | first :: rest =>
      let right_end := room.seats - 1 - (first :: rest).getLast (List.cons_ne_nil _ _)
      if right_end > first then some (gapLoop rest first right_end (room.seats - 1))
      else some (gapLoop rest first first 0)

def seat (room : ExamRoom) : Option (Int × ExamRoom) :=
  if room.seating.isEmpty then some (0, { room with seating := [0] })
  else room.findSeat.map fun pos =>
    (pos, { room with seating := Ordered.insertElement pos room.seating })

def leave (room : ExamRoom) (p : Int) : ExamRoom :=
  { room with seating := room.seating.erase p }

inductive Call where
  | seat
  | leave (p : Int)

/-- A room, and the seats that were answered and not left again. -/
def step : Step (ExamRoom × List Int) Call
  | (room, taken), .seat => room.seat.map fun (pos, room) => (room, pos :: taken)
  | (room, taken), .leave p => some (room.leave p, taken.filter (· ≠ p))

/-! A seat is as good as the distance of the closest taken one, and then as it is low. -/

/-- No taken seat is closer to `q` than `d`. -/
def Clear (taken : List Int) (q : Int) (d : Nat) : Prop := ∀ t ∈ taken, d ≤ (q - t).natAbs

/-- The free seat that is farthest from the taken ones, and the lowest one of these. -/
structure Farthest (seats : Int) (taken : List Int) (p : Int) : Prop where
  free : p ∉ taken
  inside : 0 ≤ p ∧ p < seats
  clear : ∀ q d, 0 ≤ q → q < seats → Clear taken q d → Clear taken p d
  lowest : ∀ q, 0 ≤ q → q < p → ∃ d, Clear taken p d ∧ ¬Clear taken q d

/-- `q` is not better than a seat `pos` at distance `distMax`. -/
def NotBetter (taken : List Int) (distMax pos q : Int) : Prop :=
  (∃ t ∈ taken, ((q - t).natAbs : Int) < distMax) ∨
    (∃ t ∈ taken, ((q - t).natAbs : Int) ≤ distMax) ∧ pos ≤ q

/-- What the loop has found when it is at `startPos`: a seat that is not worse than those up to
there and those from the last taken one on. -/
structure Found (seats : Int) (taken : List Int) (last startPos distMax pos : Int) : Prop where
  inside : 0 ≤ pos ∧ pos < seats
  clear : ∀ t ∈ taken, distMax ≤ (pos - t).natAbs
  best : ∀ q, 0 ≤ q → q < seats → q ≤ startPos ∨ last ≤ q → NotBetter taken distMax pos q

variable {seats first last startPos distMax pos dist pos' q : Int}
  {taken front rest : List Int} {room : ExamRoom}

theorem NotBetter.mono (h : NotBetter taken dist pos' q)
    (hBetter : dist < distMax ∨ dist = distMax ∧ pos ≤ pos') : NotBetter taken distMax pos q := by
  rcases h with ⟨t, ht, hLess⟩ | ⟨⟨t, ht, hLe⟩, hPos⟩
  · exact Or.inl ⟨t, ht, by omega⟩
  · rcases hBetter with hFar | ⟨hSame, hLow⟩
    · exact Or.inl ⟨t, ht, by omega⟩
    · exact Or.inr ⟨⟨t, ht, by omega⟩, by omega⟩

/-- The middle of a gap is the best seat inside of it. -/
theorem notBetter_middle {start : Int} (hFrom : startPos ∈ taken) (hTo : start ∈ taken)
    (hLow : startPos < q) (hHigh : q ≤ start) :
    NotBetter taken ((start - startPos) / 2) (startPos + (start - startPos) / 2) q := by
  by_cases hLeft : q - startPos < (start - startPos) / 2
  · exact Or.inl ⟨startPos, hFrom, by omega⟩
  · refine Or.inr ⟨?_, by omega⟩
    by_cases hMiddle : q - startPos ≤ (start - startPos) / 2
    · exact ⟨startPos, hFrom, by omega⟩
    · exact ⟨start, hTo, by omega⟩

/-- Everything up to the end of a gap is not better than its middle or what was found before. -/
theorem Found.best_gap {start dist' : Int} (h : Found seats taken last startPos distMax pos)
    (hFrom : startPos ∈ taken) (hTo : start ∈ taken)
    (hOld : distMax < dist' ∨ distMax = dist' ∧ pos' ≤ pos)
    (hNew : (start - startPos) / 2 < dist' ∨
      (start - startPos) / 2 = dist' ∧ pos' ≤ startPos + (start - startPos) / 2)
    (hLow : 0 ≤ q) (hHigh : q < seats) (hq : q ≤ start ∨ last ≤ q) :
    NotBetter taken dist' pos' q := by
  by_cases hInGap : startPos < q ∧ q ≤ start
  · exact (notBetter_middle hFrom hTo hInGap.1 hInGap.2).mono hNew
  · exact (h.best q hLow hHigh (by omega)).mono hOld

theorem Found.take {start : Int} (h : Found seats taken last startPos distMax pos)
    (hFrom : startPos ∈ taken) (hTo : start ∈ taken) (hRange : 0 ≤ startPos ∧ start < seats)
    (hLt : startPos < start) (hGap : ∀ t ∈ taken, t ≤ startPos ∨ start ≤ t)
    (hBetter : (start - startPos) / 2 > distMax ∨
      (start - startPos) / 2 = distMax ∧ startPos + (start - startPos) / 2 < pos) :
    Found seats taken last start ((start - startPos) / 2)
      (startPos + (start - startPos) / 2) where
  inside := by omega
  clear t ht := by
    have hSide := hGap t ht
    omega
  best q hLow hHigh hq := h.best_gap hFrom hTo (by omega) (by omega) hLow hHigh hq

theorem Found.keep {start : Int} (h : Found seats taken last startPos distMax pos)
    (hFrom : startPos ∈ taken) (hTo : start ∈ taken)
    (hNot : ¬((start - startPos) / 2 > distMax ∨
      (start - startPos) / 2 = distMax ∧ startPos + (start - startPos) / 2 < pos)) :
    Found seats taken last start distMax pos where
  inside := h.inside
  clear := h.clear
  best q hLow hHigh hq := h.best_gap hFrom hTo (by omega) (by omega) hLow hHigh hq

theorem gapLoop_found (h : Found seats taken last startPos distMax pos)
    (hTaken : taken = front ++ startPos :: rest) (hSorted : taken.Pairwise (· < ·))
    (hRange : ∀ t ∈ taken, 0 ≤ t ∧ t < seats) (hLast : last ∈ (startPos :: rest).getLast?) :
    ∃ d, Found seats taken last last d (gapLoop rest startPos distMax pos) := by
  induction rest generalizing front startPos distMax pos with
  | nil =>
      obtain rfl : startPos = last := Option.some.inj hLast
      exact ⟨distMax, h⟩
  | cons start rest ih =>
      have hFrom : startPos ∈ taken := by simp [hTaken]
      have hTo : start ∈ taken := by simp [hTaken]
      have hNext : taken = (front ++ [startPos]) ++ start :: rest := by simp [hTaken]
      rw [List.getLast?_cons_cons] at hLast
      have hSides := hTaken ▸ hSorted
      rw [List.pairwise_append] at hSides
      obtain ⟨-, hRest, hFront⟩ := hSides
      obtain ⟨hBefore, hRest⟩ := List.pairwise_cons.mp hRest
      have hLt := hBefore start List.mem_cons_self
      rw [gapLoop, Int.tdiv_eq_ediv_of_nonneg (by omega)]
      split_ifs with hBetter
      · have hEnds : 0 ≤ startPos ∧ start < seats := ⟨(hRange _ hFrom).1, (hRange _ hTo).2⟩
        refine ih (h.take hFrom hTo hEnds hLt ?_ hBetter) hNext hLast
        intro t ht
        rw [hTaken, List.mem_append, List.mem_cons, List.mem_cons] at ht
        rcases ht with ht | rfl | rfl | ht
        · exact Or.inl (hFront t ht _ List.mem_cons_self).le
        · exact Or.inl le_rfl
        · exact Or.inr le_rfl
        · exact Or.inr ((List.pairwise_cons.mp hRest).1 t ht).le
      · exact ih (h.keep hFrom hTo hBetter) hNext hLast

theorem notBetter_first (hFirst : first ∈ taken) (hLow : 0 ≤ q) (hq : q ≤ first) :
    NotBetter taken first 0 q := by
  by_cases hZero : q = 0
  · exact Or.inr ⟨⟨first, hFirst, by omega⟩, hLow⟩
  · exact Or.inl ⟨first, hFirst, by omega⟩

theorem notBetter_last (hLast : last ∈ taken) (hHigh : q < seats) (hq : last ≤ q) :
    NotBetter taken (seats - 1 - last) (seats - 1) q := by
  by_cases hEnd : q = seats - 1
  · exact Or.inr ⟨⟨last, hLast, by omega⟩, hEnd.ge⟩
  · exact Or.inl ⟨last, hLast, by omega⟩

/-- Before the loop the ends of the row are compared. -/
theorem found_ends (hFirst : first ∈ taken) (hLast : last ∈ taken)
    (hBelow : ∀ t ∈ taken, first ≤ t) (hAbove : ∀ t ∈ taken, t ≤ last)
    (hRange : ∀ t ∈ taken, 0 ≤ t ∧ t < seats) :
    if seats - 1 - last > first then Found seats taken last first (seats - 1 - last) (seats - 1)
    else Found seats taken last first first 0 := by
  have hInside := hRange first hFirst
  have hInside' := hRange last hLast
  split_ifs with hRight
  · refine ⟨by omega, fun t ht => ?_, fun q hLow hHigh hq => ?_⟩
    · have := hAbove t ht
      omega
    · rcases hq with hq | hq
      · exact (notBetter_first hFirst hLow hq).mono (Or.inl hRight)
      · exact notBetter_last hLast hHigh hq
  · refine ⟨by omega, fun t ht => ?_, fun q hLow hHigh hq => ?_⟩
    · have := hBelow t ht
      omega
    · rcases hq with hq | hq
      · exact notBetter_first hFirst hLow hq
      · exact (notBetter_last hLast hHigh hq).mono (by omega)

/-- What is kept of the seats that are taken. -/
structure Keeps (N : Int) (room : ExamRoom) (taken : List Int) : Prop where
  seats : room.seats = N
  sorted : room.seating.Pairwise (· < ·)
  same : ∀ t, t ∈ room.seating ↔ t ∈ taken
  range : ∀ t ∈ room.seating, 0 ≤ t ∧ t < N

theorem Keeps.findSeat (h : Keeps seats room taken) (hSome : room.seating ≠ []) :
    ∃ pos last d, room.findSeat = some pos ∧ Found seats room.seating last last d pos := by
  have hSorted := h.sorted
  have hRange := h.range
  rw [ExamRoom.findSeat, h.seats]
  generalize room.seating = seating at *
  obtain ⟨first, rest, rfl⟩ := List.exists_cons_of_ne_nil hSome
  have hEnds := found_ends List.mem_cons_self (List.getLast_mem hSome)
    (fun t ht => (hSorted.imp Int.le_of_lt).rel_head ht)
    (fun t ht => (hSorted.imp Int.le_of_lt).rel_getLast ht) hRange
  simp only
  split_ifs at hEnds ⊢ with hRight
  · obtain ⟨d, hFound⟩ := gapLoop_found hEnds (List.nil_append _).symm hSorted hRange
      (List.getLast?_eq_some_getLast hSome)
    exact ⟨_, _, d, rfl, hFound⟩
  · obtain ⟨d, hFound⟩ := gapLoop_found hEnds (List.nil_append _).symm hSorted hRange
      (List.getLast?_eq_some_getLast hSome)
    exact ⟨_, _, d, rfl, hFound⟩

theorem Found.notBetter {d : Int} (h : Found seats taken last last d pos) (hLow : 0 ≤ q)
    (hHigh : q < seats) : NotBetter taken d pos q :=
  h.best q hLow hHigh (le_total q last)

theorem Found.farthest {d : Int} (h : Found seats taken last last d pos)
    (hFree : ∃ q, 0 ≤ q ∧ q < seats ∧ q ∉ taken) : Farthest seats taken pos where
  inside := h.inside
  free hMem := by
    obtain ⟨q, hLow, hHigh, hq⟩ := hFree
    have hZero := h.clear pos hMem
    rcases h.notBetter hLow hHigh with ⟨t, ht, hLess⟩ | ⟨⟨t, ht, hLe⟩, -⟩
    · omega
    · obtain rfl : q = t := by omega
      exact hq ht
  clear q k hLow hHigh hClear t ht := by
    have hPos := h.clear t ht
    rcases h.notBetter hLow hHigh with ⟨t', ht', hLess⟩ | ⟨⟨t', ht', hLe⟩, -⟩
    · have := hClear t' ht'
      omega
    · have := hClear t' ht'
      omega
  lowest q hLow hLt := by
    have hInside := h.inside
    rcases h.notBetter hLow (by omega) with ⟨t, ht, hLess⟩ | ⟨-, hLe⟩
    · refine ⟨d.toNat, fun t' ht' => ?_, fun hClear => ?_⟩
      · have := h.clear t' ht'
        omega
      · have := hClear t ht
        omega
    · omega

theorem Found.zero_of_full {d : Int} (h : Found seats taken last last d pos)
    (hFull : ∀ q, 0 ≤ q → q < seats → q ∈ taken) : pos = 0 := by
  have hInside := h.inside
  have hZero := h.clear pos (hFull pos hInside.1 hInside.2)
  rcases h.notBetter le_rfl (by omega) with ⟨t, ht, hLess⟩ | ⟨-, hLe⟩
  · omega
  · omega

theorem Farthest.congr {taken' : List Int} (h : Farthest seats taken pos)
    (hSame : ∀ t, t ∈ taken ↔ t ∈ taken') : Farthest seats taken' pos := by
  have hClear : ∀ q d, Clear taken q d ↔ Clear taken' q d := fun q d =>
    forall_congr' fun t => imp_congr_left (hSame t)
  refine ⟨fun hMem => h.free ((hSame pos).mpr hMem), h.inside, ?_, ?_⟩
  · intro q d hLow hHigh hq
    exact (hClear pos d).mp (h.clear q d hLow hHigh ((hClear q d).mpr hq))
  · intro q hLow hLt
    obtain ⟨d, hPos, hq⟩ := h.lowest q hLow hLt
    exact ⟨d, (hClear pos d).mp hPos, fun hNew => hq ((hClear q d).mpr hNew)⟩

theorem Keeps.insert {p : Int} (h : Keeps seats room taken) (hp : 0 ≤ p ∧ p < seats) :
    Keeps seats { room with seating := Ordered.insertElement p room.seating } (p :: taken) where
  seats := h.seats
  sorted := Ordered.sorted_insertElement p h.sorted
  same t := by rw [Ordered.mem_insertElement, List.mem_cons, h.same]
  range t ht := by
    rcases Ordered.mem_insertElement.mp ht with rfl | ht
    · exact hp
    · exact h.range t ht

theorem Keeps.leave (h : Keeps seats room taken) (p : Int) :
    Keeps seats (room.leave p) (taken.filter (· ≠ p)) where
  seats := h.seats
  sorted := h.sorted.sublist List.erase_sublist
  same t := by
    have hNodup : room.seating.Nodup := h.sorted.imp fun hLt => hLt.ne
    rw [ExamRoom.leave, hNodup.mem_erase_iff, List.mem_filter, h.same, decide_eq_true_iff]
    exact and_comm
  range t ht := h.range t (List.mem_of_mem_erase ht)

/-- What `seat` is to answer: the best seat, and 0 in a full room. -/
def Answers (seats : Int) (taken : List Int) (pos : Int) : Prop :=
  ((∃ q, 0 ≤ q ∧ q < seats ∧ q ∉ taken) → Farthest seats taken pos) ∧
    ((∀ q, 0 ≤ q → q < seats → q ∈ taken) → pos = 0)

theorem Keeps.seat (h : Keeps seats room taken) (hSeats : 0 < seats) :
    ∃ pos room', room.seat = some (pos, room') ∧ Keeps seats room' (pos :: taken) ∧
      Answers seats taken pos := by
  by_cases hEmpty : room.seating = []
  · have hNone : ∀ t, t ∉ taken := fun t ht => by
      have := (h.same t).mpr ht
      simp [hEmpty] at this
    refine ⟨0, _, by rw [ExamRoom.seat, hEmpty]; rfl, ?_, fun _ => ?_, fun _ => rfl⟩
    · have hInsert := h.insert ⟨le_rfl, hSeats⟩
      rw [hEmpty] at hInsert
      exact hInsert
    · exact ⟨hNone 0, ⟨le_rfl, hSeats⟩, fun q d _ _ _ t ht => absurd ht (hNone t),
        fun q hLow hLt => by omega⟩
  · obtain ⟨pos, last, d, hEq, hFound⟩ := h.findSeat hEmpty
    refine ⟨pos, _, ?_, h.insert hFound.inside, fun hFree => ?_, fun hFull => ?_⟩
    · rw [ExamRoom.seat, if_neg (by simpa using hEmpty), hEq, Option.map_some]
    · exact (hFound.farthest (by simpa only [h.same] using hFree)).congr h.same
    · exact hFound.zero_of_full (by simpa only [h.same] using hFull)

/-- The invariant of a run. -/
def Kept (seats : Int) (state : ExamRoom × List Int) : Prop := Keeps seats state.1 state.2

theorem step_kept (hSeats : 0 < seats) (state : ExamRoom × List Int) (call : Call)
    (h : Kept seats state) : ∃ state', step state call = some state' ∧ Kept seats state' := by
  cases call with
  | seat =>
      obtain ⟨pos, room, hEq, hKeeps, -⟩ := Keeps.seat h hSeats
      exact ⟨(room, pos :: state.2), by rw [step, hEq, Option.map_some], hKeeps⟩
  | leave p => exact ⟨_, rfl, Keeps.leave h p⟩

/-- After every run of calls `seat` answers the free seat that is farthest from the taken ones, the
lowest one of these. -/
theorem seat_farthest (seats : Int) (hSeats : 0 < seats) (calls : List Call) :
    ∃ room taken pos room', run step (construct seats, []) calls = some (room, taken) ∧
      room.seat = some (pos, room') ∧ Answers seats taken pos := by
  have hStart : Kept seats (construct seats, []) :=
    ⟨rfl, List.Pairwise.nil, fun _ => Iff.rfl, nofun⟩
  obtain ⟨⟨room, taken⟩, hRun, hKeeps⟩ := run_of_invariant (step_kept hSeats) calls hStart
  obtain ⟨pos, room', hSeat, -, hAnswers⟩ := Keeps.seat hKeeps hSeats
  exact ⟨room, taken, pos, room', hRun, hSeat, hAnswers⟩

theorem seat_farthest_ten : ∃ room taken pos room',
    run step (construct 10, []) [.seat, .seat, .seat, .leave 0] = some (room, taken) ∧
      room.seat = some (pos, room') ∧ Answers 10 taken pos :=
  seat_farthest 10 (by decide) _

example : run step (construct 10, []) [.seat, .seat, .seat, .seat, .leave 4, .seat] =
    some (⟨10, [0, 2, 5, 9]⟩, [5, 2, 9, 0]) := by decide

end ExamRoom
/-- The elements of the queue increase, so that its top comes first. -/
structure KthLargest where
  K : Int
  elems : List Int
deriving DecidableEq

namespace KthLargest

/-- The loop of the constructor. There is nothing to pop from an empty queue. -/
def shrink (k : Int) : List Int → Option (List Int)
  | [] => if 0 > k then none else some []
  | top :: elems => if (elems.length + 1 : Int) > k then shrink k elems else some (top :: elems)

def construct (k : Int) (nums : List Int) : Option KthLargest :=
  (shrink k (nums.insertionSort (· ≤ ·))).map fun elems => ⟨k, elems⟩

/-- A value is pushed, and the least element is popped where there are too many. -/
def push (s : KthLargest) (val : Int) : KthLargest :=
  let elems := s.elems.orderedInsert (· ≤ ·) val
  { s with elems := if (elems.length : Int) > s.K then elems.tail else elems }

/-- The top is not read where there are fewer than `K` elements. -/
def add (s : KthLargest) (val : Int) : Option (Int × KthLargest) := do
  let more ← if (s.elems.length : Int) < s.K then some true else
    s.elems.head?.map fun top => decide (val > top)
  let s := if more then s.push val else s
  let top ← s.elems.head?
  return (top, s)

def step : Step KthLargest Int := fun s val => (s.add val).map Prod.snd

/-- Of the values seen fewer than `k` are greater than `v`, and `k` are not less. -/
structure IsLargest (k : Nat) (seen : List Int) (v : Int) : Prop where
  mem : v ∈ seen
  greater : seen.countP (v < ·) < k
  notLess : k ≤ seen.countP (v ≤ ·)

/-- The queue holds the greatest values seen, up to `K` of them. -/
structure Keeps (s : KthLargest) (k : Nat) (seen : List Int) : Prop where
  size : s.K = k
  sorted : s.elems.Pairwise (· ≤ ·)
  length : s.elems.length = min k seen.length
  others : ∃ rest, (s.elems ++ rest).Perm seen ∧ ∀ x ∈ rest, ∀ y ∈ s.elems, x ≤ y

variable {s : KthLargest} {k : Nat} {seen elems : List Int} {v val top : Int}

/-- The top of the queue is the answer. -/
theorem Keeps.isLargest (h : Keeps s k seen) (hTop : s.elems = top :: elems) :
    IsLargest (min k seen.length) seen top := by
  obtain ⟨rest, hPerm, hRest⟩ := h.others
  have hLength := h.length
  have hSorted := h.sorted
  rw [hTop] at hPerm hRest hLength hSorted
  obtain ⟨hFirst, -⟩ := List.pairwise_cons.mp hSorted
  have hOthers : rest.countP (top < ·) = 0 := by
    rw [List.countP_eq_zero]
    intro x hx
    simpa using hRest x hx top List.mem_cons_self
  refine ⟨hPerm.mem_iff.mp (by simp), ?_, ?_⟩
  · rw [← hPerm.countP_eq, List.countP_append, hOthers, ← hLength,
      List.countP_cons_of_neg (by simp)]
    exact Nat.lt_succ_of_le List.countP_le_length
  · have hAll : (top :: elems).countP (top ≤ ·) = (top :: elems).length := by
      rw [List.countP_eq_length]
      intro x hx
      rcases List.mem_cons.mp hx with rfl | hx
      · simp
      · simpa using hFirst x hx
    rw [← hPerm.countP_eq, List.countP_append, hAll, hLength]
    exact Nat.le_add_right _ _

/-- Where the queue is not full, it holds all. -/
theorem Keeps.perm_of_lt (h : Keeps s k seen) (hFew : s.elems.length < k) :
    s.elems.Perm seen := by
  obtain ⟨rest, hPerm, -⟩ := h.others
  have hLength := h.length
  have hTotal := hPerm.length_eq
  rw [List.length_append] at hTotal
  obtain rfl : rest = [] := List.length_eq_zero_iff.mp (by omega)
  rwa [List.append_nil] at hPerm

theorem Keeps.push_few (h : Keeps s k seen) (hFew : s.elems.length < k) (val : Int) :
    Keeps (s.push val) k (val :: seen) := by
  have hPerm := h.perm_of_lt hFew
  have hSame := hPerm.length_eq
  have hPush : s.push val = { s with elems := s.elems.orderedInsert (· ≤ ·) val } := by
    have hSize := h.size
    rw [push, if_neg]
    rw [List.orderedInsert_length]
    omega
  rw [hPush]
  refine ⟨h.size, h.sorted.orderedInsert val _, ?_, [], ?_, nofun⟩
  · rw [List.orderedInsert_length, List.length_cons]
    omega
  · rw [List.append_nil]
    exact (List.perm_orderedInsert _ _ _).trans (hPerm.cons val)

/-- In a full queue a greater value takes the place of the top. -/
theorem Keeps.push_full (h : Keeps s k seen) (hTop : s.elems = top :: elems)
    (hFull : s.elems.length = k) (hLt : top < val) : Keeps (s.push val) k (val :: seen) := by
  obtain ⟨rest, hPerm, hRest⟩ := h.others
  have hSize := h.size
  have hLength := h.length
  have hSorted := h.sorted
  have hPush : s.push val = { s with elems := elems.orderedInsert (· ≤ ·) val } := by
    rw [push, if_pos, hTop, List.orderedInsert_of_not_le _ _ (not_le.mpr hLt), List.tail_cons]
    rw [List.orderedInsert_length]
    omega
  rw [hTop] at hPerm hRest hLength hSorted hFull
  obtain ⟨hFirst, hSorted⟩ := List.pairwise_cons.mp hSorted
  rw [List.length_cons] at hFull hLength
  rw [hPush]
  refine ⟨hSize, hSorted.orderedInsert val _, ?_, top :: rest, ?_, ?_⟩
  · rw [List.orderedInsert_length, List.length_cons]
    omega
  · have hInsert := (List.perm_orderedInsert (· ≤ ·) val elems).append_right (top :: rest)
    exact hInsert.trans ((List.perm_middle.cons val).trans (hPerm.cons val))
  · intro x hx y hy
    rw [List.mem_orderedInsert] at hy
    have hTopLe : top ≤ y := by
      rcases hy with rfl | hy
      · exact hLt.le
      · exact hFirst y hy
    rcases List.mem_cons.mp hx with rfl | hx
    · exact hTopLe
    · exact (hRest x hx top List.mem_cons_self).trans hTopLe

theorem Keeps.refuse (h : Keeps s k seen) (hTop : s.elems = top :: elems)
    (hFull : s.elems.length = k) (hLe : val ≤ top) : Keeps s k (val :: seen) := by
  obtain ⟨rest, hPerm, hRest⟩ := h.others
  have hLength := h.length
  refine ⟨h.size, h.sorted, ?_, val :: rest, ?_, ?_⟩
  · rw [List.length_cons]
    omega
  · exact List.perm_middle.trans (hPerm.cons val)
  · intro x hx y hy
    rcases List.mem_cons.mp hx with rfl | hx
    · have hSorted := h.sorted
      rw [hTop] at hSorted hy
      rcases List.mem_cons.mp hy with rfl | hy
      · exact hLe
      · exact hLe.trans ((List.pairwise_cons.mp hSorted).1 y hy)
    · exact hRest x hx y hy

theorem Keeps.add (h : Keeps s k seen) (hk : 0 < k) (val : Int) :
    ∃ top s', s.add val = some (top, s') ∧ Keeps s' k (val :: seen) ∧
      IsLargest (min k (val :: seen).length) (val :: seen) top := by
  have hTop : ∀ s', Keeps s' k (val :: seen) → ∃ top, s'.elems.head? = some top ∧
      IsLargest (min k (val :: seen).length) (val :: seen) top := by
    intro s' hKeeps
    have hLength := hKeeps.length
    rw [List.length_cons] at hLength
    obtain ⟨top, elems, hElems⟩ := List.exists_cons_of_length_pos (l := s'.elems) (by omega)
    exact ⟨top, by rw [hElems]; rfl, hKeeps.isLargest hElems⟩
  have hSize := h.size
  have hLength := h.length
  rw [KthLargest.add]
  by_cases hFew : s.elems.length < k
  · have hKeeps := h.push_few hFew val
    obtain ⟨top, hHead, hLargest⟩ := hTop _ hKeeps
    refine ⟨top, _, ?_, hKeeps, hLargest⟩
    rw [if_pos (by omega)]
    simp only [Option.bind_eq_bind, Option.bind_some, if_true, hHead, Option.pure_def]
  · have hFull : s.elems.length = k := by omega
    obtain ⟨top, elems, hElems⟩ := List.exists_cons_of_length_pos (l := s.elems) (by omega)
    have hHead : s.elems.head? = some top := by rw [hElems]; rfl
    rw [if_neg (by omega), hHead, Option.map_some]
    by_cases hLt : top < val
    · have hKeeps := h.push_full hElems hFull hLt
      obtain ⟨top', hHead', hLargest⟩ := hTop _ hKeeps
      refine ⟨top', _, ?_, hKeeps, hLargest⟩
      simp only [Option.bind_eq_bind, Option.bind_some, gt_iff_lt, hLt, decide_true, if_true,
        hHead', Option.pure_def]
    · have hKeeps := h.refuse hElems hFull (not_lt.mp hLt)
      refine ⟨top, s, ?_, hKeeps, hKeeps.isLargest hElems⟩
      simp only [Option.bind_eq_bind, Option.bind_some, gt_iff_lt, hLt, decide_false,
        Bool.false_eq_true, if_false, hHead, Option.pure_def]

theorem shrink_eq (k : Nat) (l : List Int) : shrink k l = some (l.drop (l.length - k)) := by
  induction l with
  | nil => rw [shrink, if_neg (by omega), List.drop_nil]
  | cons top l ih =>
      rw [shrink]
      by_cases hMany : k ≤ l.length
      · rw [if_pos (by omega), ih, List.length_cons, Nat.succ_sub hMany, List.drop_succ_cons]
      · rw [if_neg (by omega), List.length_cons, Nat.sub_eq_zero_of_le (by omega), List.drop_zero]

theorem construct_keeps (k : Nat) (nums : List Int) :
    ∃ s, construct k nums = some s ∧ Keeps s k nums := by
  rw [construct, shrink_eq, Option.map_some]
  have hSorted := List.pairwise_insertionSort (· ≤ ·) nums
  have hPerm := List.perm_insertionSort (· ≤ ·) nums
  generalize nums.insertionSort (· ≤ ·) = sorted at hSorted hPerm ⊢
  have hSplit := List.take_append_drop (sorted.length - k) sorted
  refine ⟨_, rfl, rfl, hSorted.sublist (List.drop_sublist _ _), ?_,
    sorted.take (sorted.length - k), ?_, ?_⟩
  · rw [List.length_drop, ← hPerm.length_eq]
    omega
  · exact List.perm_append_comm.trans (hSplit.symm ▸ hPerm)
  · intro x hx y hy
    rw [← hSplit, List.pairwise_append] at hSorted
    exact hSorted.2.2 x hx y hy

theorem step_keeps (hk : 0 < k) (s : KthLargest) (seen : List Int) (val : Int)
    (h : Keeps s k seen) : ∃ s', step s val = some s' ∧ Keeps s' k (val :: seen) := by
  obtain ⟨top, s', hAdd, hKeeps, -⟩ := h.add hk val
  exact ⟨s', by rw [step, hAdd, Option.map_some], hKeeps⟩

end KthLargest
/-- Counts and elements in turn. -/
structure RLEIterator where
  RLE : List Int
deriving DecidableEq

namespace RLEIterator

/-- The loop of `next`. A count without an element behind it cannot be answered. -/
def nextLoop : (RLE : List Int) → (n : Int) → Option (Int × List Int)
  | [], _ => some (-1, [])
  | [count], n => if count ≥ n then none else some (-1, [])
  | count :: result :: rest, n =>
      if count ≥ n then
        some (result, if count - n = 0 then rest else (count - n) :: result :: rest)
      else nextLoop rest (n - count)

/-- The answers are collected. -/
def step : Step (RLEIterator × List Int) Int := fun (s, answers) n =>
  (nextLoop s.RLE n).map fun (result, RLE) => (⟨RLE⟩, answers ++ [result])

/-- Every count has its element, and none is negative. -/
def Encoding : List Int → Prop
  | [] => True
  | [_] => False
  | count :: _ :: rest => 0 ≤ count ∧ Encoding rest

def expand : List Int → List Int
  | [] => []
  | [_] => []
  | count :: result :: rest => List.replicate count.toNat result ++ expand rest

/-- The first `n` elements are taken off, and the last one of these is the answer. -/
def spec (v : List Int × List Int) (n : Int) : List Int × List Int :=
  (v.1.drop n.toNat, v.2 ++ [(v.1[n.toNat - 1]?).getD (-1)])

theorem nextLoop_spec (RLE : List Int) (n : Int) (hCode : Encoding RLE) (hn : 1 ≤ n) :
    ∃ rest, nextLoop RLE n = some ((((expand RLE)[n.toNat - 1]?).getD (-1)), rest) ∧
      Encoding rest ∧ expand rest = (expand RLE).drop n.toNat := by
  induction RLE, n using nextLoop.induct with
  | case1 n => exact ⟨[], rfl, trivial, List.drop_nil.symm⟩
  | case2 count n hLe => exact hCode.elim
  | case3 count n hLt => exact hCode.elim
  | case4 count result rest n hLe =>
      obtain ⟨hCount, hRest⟩ := hCode
      have hInside : n.toNat - 1 < count.toNat := by omega
      have hLeft : (count - n).toNat = count.toNat - n.toNat := by omega
      have hDrop : (expand (count :: result :: rest)).drop n.toNat =
          List.replicate (count - n).toNat result ++ expand rest := by
        rw [expand, List.drop_append_of_le_length (by rw [List.length_replicate]; omega),
          List.drop_replicate, hLeft]
      rw [nextLoop, if_pos hLe, hDrop, expand,
        List.getElem?_append_left (by rw [List.length_replicate]; omega),
        List.getElem?_replicate_of_lt hInside, Option.getD_some]
      refine ⟨_, rfl, ?_⟩
      split_ifs with hZero
      · rw [hZero]
        exact ⟨hRest, rfl⟩
      · exact ⟨⟨by omega, hRest⟩, rfl⟩
  | case5 count result rest n hLt ih =>
      obtain ⟨hCount, hRest⟩ := hCode
      obtain ⟨left, hNext, hLeft, hExpand⟩ := ih hRest (by omega)
      refine ⟨left, ?_, hLeft, ?_⟩
      · rw [nextLoop, if_neg hLt, hNext, expand,
          List.getElem?_append_right (by rw [List.length_replicate]; omega), List.length_replicate]
        congr 4
        omega
      · have hNone : (List.replicate count.toNat result).drop n.toNat = [] :=
          List.drop_eq_nil_of_le (by rw [List.length_replicate]; omega)
        rw [hExpand, expand, List.drop_append, hNone, List.nil_append, List.length_replicate]
        congr 1
        omega

theorem step_spec (state : RLEIterator × List Int) (v : List Int × List Int) (n : Int)
    (hState : Encoding state.1.RLE ∧ expand state.1.RLE = v.1 ∧ state.2 = v.2) (hn : 1 ≤ n) :
    ∃ state', step state n = some state' ∧ Encoding state'.1.RLE ∧
      expand state'.1.RLE = (spec v n).1 ∧ state'.2 = (spec v n).2 := by
  obtain ⟨hCode, hExpand, hAnswers⟩ := hState
  obtain ⟨rest, hNext, hRest, hDrop⟩ := nextLoop_spec state.1.RLE n hCode hn
  refine ⟨_, by rw [step, hNext, Option.map_some], hRest, ?_, ?_⟩
  · rw [hDrop, hExpand]
    rfl
  · rw [hExpand, hAnswers]
    rfl

/-- The calls of `next` take the elements of the encoded list from the front. -/
theorem run_elements (A : List Int) (ns : List Int) (hCode : Encoding A) (hn : ∀ n ∈ ns, 1 ≤ n) :
    ∃ s, run step (⟨A⟩, []) ns = some (s, (ns.foldl spec (expand A, [])).2) ∧
      expand s.RLE = (ns.foldl spec (expand A, [])).1 := by
  obtain ⟨⟨s, answers⟩, hRun, -, hExpand, rfl⟩ := run_of_guarded_simulation step_spec
    (show Encoding A ∧ expand A = (expand A, ([] : List Int)).1 ∧ [] = [] from ⟨hCode, rfl, rfl⟩)
    (guarded_of_forall (fun n h _ => hn n h) (⟨A⟩, []))
  exact ⟨s, hRun, hExpand⟩

theorem run_elements_eight : ∃ s, run step (⟨[3, 8, 0, 9, 2, 5]⟩, []) [2, 1, 1, 2] =
    some (s, [8, 8, 5, -1]) ∧ expand s.RLE = [] :=
  run_elements [3, 8, 0, 9, 2, 5] [2, 1, 1, 2] ⟨by decide, by decide, by decide, trivial⟩
    (by decide)

end RLEIterator
end CppPerf.Sequences
