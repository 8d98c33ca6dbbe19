import CppPerf.Semantics.Erosion
import Mathlib.Algebra.Ring.Int.Defs
import Mathlib.Algebra.Ring.Nat
import Mathlib.Data.Int.Order.Basic
import Mathlib.Data.List.Basic
import Mathlib.Order.Lattice

/-! `poisonousPlants` and its `StackOfStack` of `HackerRankStack.cpp`. Reading outside of
the vector fails. -/
namespace CppPerf.Sequences

/-- Conversion to `int`. -/
def int (x : Int) : Int := x.bmod (2 ^ 32)

/-- The element at an `int` index. A negative one becomes a `size_t` that is too large. -/
def atInt {α : Type} (values : List α) (i : Int) : Option α :=
  if 0 ≤ i then values[i.toNat]? else none

/-- `i + 1`, which must not leave the range of `int`. -/
def next (i : Int) : Option Int := if i + 1 < 2 ^ 31 then some (i + 1) else none

namespace StackOfStack

variable {value_type : Type} [LinearOrder value_type]

/-- The loop that merges the sequences that end. The last sequence is apart from those
below it, the nearest of them first. -/
def merge (value : value_type) (last : value_type × Nat) :
    List (value_type × Nat) → (value_type × Nat) × List (value_type × Nat)
  | [] => (last, [])
  | below :: stack =>
      if value ≤ below.1 then merge value (below.1, max below.2 last.2) stack
      else (last, below :: stack)

/-- A round of the loop of `longest_decreasing`. -/
def push (stack : (value_type × Nat) × List (value_type × Nat)) (value : value_type) :
    (value_type × Nat) × List (value_type × Nat) :=
  if value ≤ stack.1.1 then
    let merged := merge value stack.1 stack.2
    ((value, merged.1.2 + 1), merged.2)
  else ((value, 1), stack.1 :: stack.2)

/-- The loop. The first argument is what is left of the range. A count is at most the
length of the range, so that it fits an `int`. -/
def pushAll (values : List value_type) : (left : Nat) → (i : Int) →
    (value_type × Nat) × List (value_type × Nat) →
    Option ((value_type × Nat) × List (value_type × Nat))
  | 0, _, stack => some stack
  | left + 1, i, stack => do
      let value ← atInt values i
      pushAll values left (i + 1) (push stack value)

/-- The loop over the sequences, the lowest one first. -/
def longest (stack : (value_type × Nat) × List (value_type × Nat)) : Nat :=
  (stack.2.reverse ++ [stack.1]).foldl (fun max_seq p => max max_seq p.2) 1

def longest_decreasing (values : List value_type) (start stop : Int) : Option Nat := do
  let first ← atInt values start
  let i ← next start
  let stack ← pushAll values (stop - i).toNat i ((first, 1), [])
  some (longest stack)

end StackOfStack

/-- The inner loop of `poisonousPlants`. -/
def segmentEnd (p : List Int) (survivor : Int) (j : Nat) : Nat :=
  if _h : j < p.length then
    if survivor < p[j] then segmentEnd p survivor (j + 1) else j
  else j
termination_by p.length - j

theorem le_segmentEnd (p : List Int) (survivor : Int) (j : Nat) :
    j ≤ segmentEnd p survivor j := by
  induction j using segmentEnd.induct p survivor with
  | case1 j hj hGreater ih =>
      rw [segmentEnd, dif_pos hj, if_pos hGreater]
      exact Nat.le_trans (Nat.le_succ j) ih
  | case2 j hj hGreater => rw [segmentEnd, dif_pos hj, if_neg hGreater]
  | case3 j hj => rw [segmentEnd, dif_neg hj]

/-- The loop of `poisonousPlants`, with `i` as it is before it is incremented. -/
def eachPlant (p : List Int) (i days : Nat) : Option Nat :=
  if _h : i + 1 < p.length then
    if p[i] < p[i + 1] then do
      let j := segmentEnd p p[i] (i + 2)
      let longest ← StackOfStack.longest_decreasing p (int (i + 1)) (int j)
      eachPlant p j (max days longest)
    else eachPlant p (i + 1) days
  else some days
termination_by p.length - i
decreasing_by
  · have hLe := le_segmentEnd p p[i] (i + 2)
    omega
  · omega

def poisonousPlants (p : List Int) : Option Nat := eachPlant p 0 0

end CppPerf.Sequences

/-! The stack of merged sequences gives the day on which each plant dies. -/
namespace CppPerf.Sequences

open Erosion

namespace StackOfStack

theorem foldl_max_spec {α : Type} (sequences : List (α × Nat)) (max_seq : Nat) :
    let longest := sequences.foldl (fun max_seq p => max max_seq p.2) max_seq
    max_seq ≤ longest ∧ (∀ p ∈ sequences, p.2 ≤ longest) ∧
      (longest = max_seq ∨ ∃ p ∈ sequences, p.2 = longest) := by
  induction sequences generalizing max_seq with
  | nil => simp
  | cons p sequences ih =>
      obtain ⟨hFirst, hRest, hAttained⟩ := ih (max max_seq p.2)
      refine ⟨(le_max_left _ _).trans hFirst,
        List.forall_mem_cons.mpr ⟨(le_max_right _ _).trans hFirst, hRest⟩, ?_⟩
      rcases hAttained with hEq | ⟨q, hq, hEq⟩
      · rcases le_total max_seq p.2 with hLe | hLe
        · exact Or.inr ⟨p, List.mem_cons_self, by rw [List.foldl_cons, hEq, max_eq_right hLe]⟩
        · exact Or.inl (by rw [List.foldl_cons, hEq, max_eq_left hLe])
      · exact Or.inr ⟨q, List.mem_cons_of_mem _ hq, hEq⟩

variable {value_type : Type} [LinearOrder value_type] {survivor value : value_type}
  {stack : List (value_type × Nat)} {part others plants : List (value_type × ℕ∞)}

/-- The value that the nearest sequence ends with, or else the survivor. -/
def ending (survivor : value_type) : List (value_type × Nat) → value_type
  | [] => survivor
  | last :: _ => last.1

/-- Each sequence of the stack stands for the plants since the one below it, nearest
first: none of them is smaller than the last one or dies after it. -/
inductive Stacked (survivor : value_type) :
    List (value_type × Nat) → List (value_type × ℕ∞) → Prop
  | nil : Stacked survivor [] []
  | cons {value : value_type} {count : Nat} {part others : List (value_type × ℕ∞)}
      {stack : List (value_type × Nat)} (hPart : ∀ x ∈ part, value ≤ x.1 ∧ x.2 ≤ count)
      (hCount : 0 < count) (hEnding : ending survivor stack < value)
      (hStack : Stacked survivor stack others) :
      Stacked survivor ((value, count) :: stack) ((value, (count : ℕ∞)) :: part ++ others)

/-- The plants that a new one is compared with: none is smaller than it, and the last
of them dies on the day `count`. -/
structure Merged (value : value_type) (count : Nat) (part : List (value_type × ℕ∞)) : Prop where
  before : ∀ x ∈ part, value ≤ x.1 ∧ x.2 ≤ count
  attained : ∃ x ∈ part, x.2 = count

theorem Merged.append {count newCount : Nat} {newPart : List (value_type × ℕ∞)}
    (h : Merged value count part) (hNew : Merged value newCount newPart) :
    Merged value (max newCount count) (part ++ newPart) := by
  constructor
  · intro x hx
    rcases List.mem_append.mp hx with hx | hx
    · exact ⟨(h.before x hx).1, (h.before x hx).2.trans (by simp)⟩
    · exact ⟨(hNew.before x hx).1, (hNew.before x hx).2.trans (by simp)⟩
  · rcases le_total newCount count with hLe | hLe
    · obtain ⟨x, hx, hDay⟩ := h.attained
      exact ⟨x, List.mem_append_left _ hx, by rw [max_eq_right hLe, hDay]⟩
    · obtain ⟨x, hx, hDay⟩ := hNew.attained
      exact ⟨x, List.mem_append_right _ hx, by rw [max_eq_left hLe, hDay]⟩

/-- The plants of a sequence whose last value is not smaller. -/
theorem Merged.sequence {last : value_type} {count : Nat}
    (hPart : ∀ x ∈ part, last ≤ x.1 ∧ x.2 ≤ count) (hLe : value ≤ last) :
    Merged value count ((last, (count : ℕ∞)) :: part) where
  before := List.forall_mem_cons.mpr
    ⟨⟨hLe, le_rfl⟩, fun x hx => ⟨hLe.trans (hPart x hx).1, (hPart x hx).2⟩⟩
  attained := ⟨(last, count), List.mem_cons_self, rfl⟩

/-- The sequences whose last values are not smaller are merged. -/
theorem merge_spec (last : value_type × Nat) (hStack : Stacked survivor stack others)
    (hMerged : Merged value last.2 part) (hValue : survivor < value) :
    ∃ newPart newOthers, part ++ others = newPart ++ newOthers ∧
      Merged value (merge value last stack).1.2 newPart ∧
      Stacked survivor (merge value last stack).2 newOthers ∧
      ending survivor (merge value last stack).2 < value := by
  induction hStack generalizing last part with
  | nil => exact ⟨part, [], rfl, hMerged, .nil, hValue⟩
  | @cons below count belowPart others stack hPart hCount hEnding hStack ih =>
      rw [merge]
      by_cases hLe : value ≤ below
      · rw [if_pos hLe, ← List.append_assoc]
        exact ih (below, max count last.2) (hMerged.append (.sequence hPart hLe))
      · rw [if_neg hLe]
        exact ⟨part, _, rfl, hMerged, .cons hPart hCount hEnding hStack, lt_of_not_ge hLe⟩

/-- The head of what follows the plants of the stack. -/
theorem exists_ending (hStack : Stacked survivor stack others) {e : ℕ∞}
    {rest : List (value_type × ℕ∞)} :
    ∃ e' rest', others ++ (survivor, e) :: rest = (ending survivor stack, e') :: rest' := by
  cases hStack with
  | nil => exact ⟨e, rest, rfl⟩
  | cons => exact ⟨_, _, rfl⟩

/-- A plant of the segment dies on the day that its sequence has as its count. -/
theorem push_spec {last : value_type × Nat} (hStack : Stacked survivor (last :: stack) plants)
    (hValue : survivor < value) (e : ℕ∞) (rest : List (value_type × ℕ∞)) :
    Stacked survivor ((push (last, stack) value).1 :: (push (last, stack) value).2)
      ((value, dayFrom value (plants ++ (survivor, e) :: rest) 0) :: plants) := by
  cases hStack with
  | @cons v count part others _ hPart hCount hEnding hStack =>
      rw [push]
      by_cases hLe : value ≤ v
      · obtain ⟨newPart, newOthers, hSplit, hMerged, hRest, hBelow⟩ :=
          merge_spec (v, count) hStack (.sequence hPart hLe) hValue
        obtain ⟨e', rest', hNext⟩ := @exists_ending _ _ _ _ _ hRest e rest
        rw [if_pos hLe, hSplit, List.append_assoc, hNext,
          dayFrom_eq hMerged.before hMerged.attained hBelow]
        refine .cons (fun x hx => ?_) (Nat.succ_pos _) hBelow hRest
        exact ⟨(hMerged.before x hx).1, (hMerged.before x hx).2.trans (by simp)⟩
      · rw [if_neg hLe, List.cons_append, List.cons_append, dayFrom, if_pos (lt_of_not_ge hLe)]
        exact @Stacked.cons _ _ survivor value 1 [] _ _ (by simp) Nat.one_pos (lt_of_not_ge hLe)
          (.cons hPart hCount hEnding hStack)

/-- The stack after the plants of a segment, which come behind the survivor. -/
theorem foldl_push_spec (segment : List value_type) {before line : List value_type}
    {last : value_type × Nat} (hSegment : ∀ value ∈ segment, survivor < value)
    (hPlants : withDays line = plants ++ withDays (survivor :: before))
    (hStack : Stacked survivor (last :: stack) plants) :
    ∃ newPlants, withDays (segment.reverse ++ line) =
        newPlants ++ withDays (survivor :: before) ∧
      Stacked survivor ((segment.foldl push (last, stack)).1 ::
        (segment.foldl push (last, stack)).2) newPlants := by
  induction segment generalizing last stack plants line with
  | nil => exact ⟨plants, hPlants, hStack⟩
  | cons value segment ih =>
      obtain ⟨hValue, hRest⟩ := List.forall_mem_cons.mp hSegment
      have hPushed := push_spec hStack hValue (dayFrom survivor (withDays before) 0)
        (withDays before)
      rw [List.reverse_cons, List.append_assoc, List.foldl_cons]
      apply ih hRest _ hPushed
      rw [List.cons_append, List.nil_append, withDays, hPlants, withDays]
      rfl

theorem exists_sequence (hStack : Stacked survivor stack plants) :
    ∀ x ∈ plants, ∃ p ∈ stack, x.2 ≤ p.2 := by
  induction hStack with
  | nil => simp
  | @cons value count part others stack hPart _ _ _ ih =>
      intro x hx
      rcases List.mem_append.mp hx with hx | hx
      · refine ⟨(value, count), List.mem_cons_self, ?_⟩
        rcases List.mem_cons.mp hx with rfl | hx
        · exact le_rfl
        · exact (hPart x hx).2
      · obtain ⟨p, hp, hLe⟩ := ih x hx
        exact ⟨p, List.mem_cons_of_mem _ hp, hLe⟩

theorem exists_plant (hStack : Stacked survivor stack plants) :
    ∀ p ∈ stack, 0 < p.2 ∧ ∃ x ∈ plants, x.2 = p.2 := by
  induction hStack with
  | nil => simp
  | @cons value count part others stack hPart hCount _ _ ih =>
      refine List.forall_mem_cons.mpr ⟨⟨hCount, _, List.mem_cons_self, rfl⟩, fun p hp => ?_⟩
      obtain ⟨hPos, x, hx, hDay⟩ := ih p hp
      exact ⟨hPos, x, List.mem_append_right _ hx, hDay⟩

/-- The longest sequence is the latest day of the segment. -/
theorem longest_spec {stack : (value_type × Nat) × List (value_type × Nat)}
    (hStack : Stacked survivor (stack.1 :: stack.2) plants) :
    (∀ x ∈ plants, x.2 ≤ longest stack) ∧ ∃ x ∈ plants, x.2 = longest stack := by
  obtain ⟨hOne, hMax, hAttained⟩ := foldl_max_spec (stack.2.reverse ++ [stack.1]) 1
  have hMem (p : value_type × Nat) : p ∈ stack.2.reverse ++ [stack.1] ↔ p ∈ stack.1 :: stack.2 := by
    simp [or_comm]
  constructor
  · intro x hx
    obtain ⟨p, hp, hLe⟩ := exists_sequence hStack x hx
    exact hLe.trans (by exact_mod_cast hMax p ((hMem p).mpr hp))
  · obtain ⟨p, hp, hLongest⟩ : ∃ p ∈ stack.1 :: stack.2, p.2 = longest stack := by
      rcases hAttained with hEq | ⟨p, hp, hEq⟩
      · refine ⟨stack.1, List.mem_cons_self, ?_⟩
        have hPos := (exists_plant hStack stack.1 List.mem_cons_self).1
        have hLe := hMax stack.1 (by simp)
        rw [longest]
        omega
      · exact ⟨p, (hMem p).mp hp, hEq⟩
    obtain ⟨-, x, hx, hDay⟩ := exists_plant hStack p hp
    exact ⟨x, hx, by rw [hDay, hLongest]⟩

end StackOfStack

theorem atInt_append {α : Type} (before rest : List α) (value : α) :
    atInt (before ++ value :: rest) before.length = some value := by
  rw [atInt, if_pos (Int.natCast_nonneg _), Int.toNat_natCast, List.getElem?_append_right le_rfl,
    Nat.sub_self, List.getElem?_cons_zero]

section Segment

variable {value_type : Type} [LinearOrder value_type]

theorem pushAll_eq (before segment rest : List value_type)
    (stack : (value_type × Nat) × List (value_type × Nat)) :
    StackOfStack.pushAll (before ++ (segment ++ rest)) segment.length before.length stack =
      some (segment.foldl StackOfStack.push stack) := by
  induction segment generalizing before stack with
  | nil => rfl
  | cons value segment ih =>
      have hNext := ih (before ++ [value]) (StackOfStack.push stack value)
      rw [List.length_append, List.append_assoc, Int.natCast_add] at hNext
      rw [List.length_cons, StackOfStack.pushAll, List.cons_append, atInt_append]
      exact hNext

theorem longest_decreasing_eq (before segment rest : List value_type) (value : value_type)
    (hLength : before.length + 1 + segment.length < 2 ^ 31) :
    StackOfStack.longest_decreasing (before ++ value :: (segment ++ rest)) before.length
        ((before.length + 1 + segment.length : Nat) : Int) =
      some (StackOfStack.longest (segment.foldl StackOfStack.push ((value, 1), []))) := by
  have hPushed := pushAll_eq (before ++ [value]) segment rest ((value, 1), [])
  rw [List.length_append, List.append_assoc] at hPushed
  have hRounds : (((before.length + 1 + segment.length : Nat) : Int) - (before.length + 1)).toNat =
      segment.length := by omega
  rw [StackOfStack.longest_decreasing, atInt_append, next, if_pos (by omega)]
  simp only [Option.bind_eq_bind, Option.bind_some, hRounds]
  rw [show ((before.length : Int) + 1) = ((before.length + [value].length : Nat) : Int) from rfl]
  rw [show before ++ value :: (segment ++ rest) = before ++ ([value] ++ (segment ++ rest)) from rfl,
    hPushed]
  rfl

/-- The days of a segment behind a survivor. -/
theorem segment_latest {survivor value : value_type} {before segment : List value_type} {days : Nat}
    (hSegment : ∀ x ∈ value :: segment, survivor < x)
    (hDays : LatestDay (withDays (survivor :: before)) days) :
    LatestDay (withDays (segment.reverse ++ value :: survivor :: before))
      (max days (StackOfStack.longest (segment.foldl StackOfStack.push ((value, 1), [])))) := by
  obtain ⟨hValue, hRest⟩ := List.forall_mem_cons.mp hSegment
  have hFirst : StackOfStack.Stacked survivor [(value, 1)] [(value, ((1 : Nat) : ℕ∞))] :=
    @StackOfStack.Stacked.cons _ _ survivor value 1 [] [] [] (by simp) Nat.one_pos hValue .nil
  have hPlants : withDays (value :: survivor :: before) =
      [(value, ((1 : Nat) : ℕ∞))] ++ withDays (survivor :: before) := by
    rw [withDays, withDays, dayFrom, if_pos hValue]
    rfl
  obtain ⟨plants, hAll, hStack⟩ :=
    StackOfStack.foldl_push_spec segment hRest hPlants hFirst
  obtain ⟨hLe, hAttained⟩ := StackOfStack.longest_spec hStack
  rw [hAll]
  exact hDays.append hLe hAttained

end Segment

theorem segmentEnd_eq (before rest : List Int) (survivor : Int) :
    segmentEnd (before ++ rest) survivor before.length =
      before.length + (rest.takeWhile fun value => survivor < value).length := by
  induction rest generalizing before with
  | nil => rw [segmentEnd, dif_neg (by simp)]; rfl
  | cons value rest ih =>
      have hNext := ih (before ++ [value])
      rw [List.append_assoc, List.length_append] at hNext
      rw [segmentEnd, dif_pos (by simp), List.getElem_append_right le_rfl, List.takeWhile_cons]
      by_cases hGreater : survivor < value
      · simp only [Nat.sub_self, List.getElem_cons_zero, hGreater, decide_true, if_true]
        exact hNext.trans (by simp [Nat.add_assoc, Nat.add_comm])
      · simp [hGreater]

theorem int_eq {i : Nat} (h : i < 2 ^ 31) : int i = i :=
  Int.bmod_eq_of_le (by omega) (by omega)

theorem eachPlant_of_length_le {p : List Int} {i : Nat} (days : Nat) (h : p.length ≤ i + 1) :
    eachPlant p i days = some days := by
  rw [eachPlant, dif_neg (by omega)]

theorem eachPlant_of_getElem? {p : List Int} {i : Nat} {survivor value : Int} (days : Nat)
    (hSurvivor : p[i]? = some survivor) (hValue : p[i + 1]? = some value) :
    eachPlant p i days = if survivor < value then
        (StackOfStack.longest_decreasing p (int (i + 1))
          (int (segmentEnd p survivor (i + 2)))).bind fun longest =>
            eachPlant p (segmentEnd p survivor (i + 2)) (max days longest)
      else eachPlant p (i + 1) days := by
  obtain ⟨_, hSurvivor⟩ := List.getElem?_eq_some_iff.mp hSurvivor
  obtain ⟨hNext, hValue⟩ := List.getElem?_eq_some_iff.mp hValue
  rw [eachPlant, dif_pos hNext]
  simp only [hSurvivor, hValue]
  rfl

theorem exists_segment (rest : List Int) (survivor : Int) :
    ∃ segment tail, rest = segment ++ tail ∧ (∀ x ∈ segment, survivor < x) ∧
      ∀ x ∈ tail.head?, x ≤ survivor := by
  induction rest with
  | nil => exact ⟨[], [], rfl, by simp, by simp⟩
  | cons value rest ih =>
      rcases le_or_gt value survivor with hValue | hValue
      · exact ⟨[], value :: rest, rfl, by simp, by simpa using hValue⟩
      · obtain ⟨segment, tail, rfl, hSegment, hTail⟩ := ih
        exact ⟨value :: segment, tail, rfl, List.forall_mem_cons.mpr ⟨hValue, hSegment⟩, hTail⟩

section Step

variable (before segment rest : List Int) {survivor value : Int} (days : Nat)

theorem getElem?_survivor : (before ++ survivor :: value :: rest)[before.length]? =
    some survivor := by
  simp

theorem getElem?_value : (before ++ survivor :: value :: rest)[before.length + 1]? =
    some value := by
  simp

/-- A plant that is not greater survives, too. -/
theorem eachPlant_survivor (hValue : value ≤ survivor) :
    eachPlant (before ++ survivor :: value :: rest) before.length days =
      eachPlant (before ++ survivor :: value :: rest) (before.length + 1) days := by
  rw [eachPlant_of_getElem? days (getElem?_survivor before rest) (getElem?_value before rest),
    if_neg (not_lt_of_ge hValue)]

/-- The segment behind a survivor ends at the next survivor. -/
theorem segmentEnd_survivor (hSegment : ∀ x ∈ segment, survivor < x)
    (hRest : ∀ x ∈ rest.head?, x ≤ survivor) :
    segmentEnd (before ++ survivor :: value :: (segment ++ rest)) survivor (before.length + 2) =
      before.length + 2 + segment.length := by
  have hStop : rest.takeWhile (fun x => survivor < x) = [] := by
    cases rest with
    | nil => rfl
    | cons x rest =>
        have hNot : ¬survivor < x := not_lt_of_ge (hRest x rfl)
        rw [List.takeWhile_cons_of_neg (by simpa using hNot)]
  have hWhole := segmentEnd_eq (before ++ [survivor, value]) (segment ++ rest) survivor
  rw [List.takeWhile_append_of_pos (by simpa using hSegment), hStop, List.append_nil,
    List.length_append, List.append_assoc] at hWhole
  exact hWhole

theorem eachPlant_segment
    (hLength : (before ++ survivor :: value :: (segment ++ rest)).length < 2 ^ 31)
    (hValue : survivor < value) (hSegment : ∀ x ∈ segment, survivor < x)
    (hRest : ∀ x ∈ rest.head?, x ≤ survivor) :
    eachPlant (before ++ survivor :: value :: (segment ++ rest)) before.length days =
      eachPlant (before ++ survivor :: value :: (segment ++ rest))
        (before.length + 2 + segment.length)
        (max days (StackOfStack.longest (segment.foldl StackOfStack.push ((value, 1), [])))) := by
  simp only [List.length_append, List.length_cons] at hLength
  have hSequences := longest_decreasing_eq (before ++ [survivor]) segment rest value
    (by rw [List.length_append]; change before.length + 1 + 1 + segment.length < 2 ^ 31; omega)
  rw [List.append_assoc, List.length_append] at hSequences
  have hStart : int ((before.length : Int) + 1) = ((before.length + 1 : Nat) : Int) :=
    int_eq (i := before.length + 1) (by omega)
  rw [eachPlant_of_getElem? days (getElem?_survivor before _) (getElem?_value before _),
    if_pos hValue, segmentEnd_survivor before segment rest hSegment hRest,
    int_eq (by omega), hStart]
  exact congrArg (Option.bind · _) hSequences

end Step

/-- The loop is at a survivor, and `days` is the latest day so far. -/
structure AtSurvivor (before : List Int) (survivor : Int) (days : Nat) : Prop where
  min : ∀ value ∈ before, survivor ≤ value
  latest : LatestDay (withDays (survivor :: before.reverse)) days

namespace AtSurvivor

variable {before segment : List Int} {survivor value : Int} {days : Nat}

theorem of_min {line : List Int} (hMin : ∀ x ∈ line, value ≤ x)
    (hLatest : LatestDay (withDays line.reverse) days) : AtSurvivor line value days where
  min := hMin
  latest := hLatest.survivor fun x hx => hMin x (List.mem_reverse.mp hx)

theorem next_survivor (h : AtSurvivor before survivor days) (hValue : value ≤ survivor) :
    AtSurvivor (before ++ [survivor]) value days := by
  apply of_min
  · intro x hx
    rcases List.mem_append.mp hx with hx | hx
    · exact hValue.trans (h.min x hx)
    · exact hValue.trans (List.mem_singleton.mp hx).ge
  · rw [List.reverse_append]
    exact h.latest

/-- The plants of a segment come behind the survivor. -/
theorem segment_latest (h : AtSurvivor before survivor days) (hValue : survivor < value)
    (hSegment : ∀ x ∈ segment, survivor < x) :
    LatestDay (withDays (before ++ survivor :: value :: segment).reverse)
      (max days (StackOfStack.longest (segment.foldl StackOfStack.push ((value, 1), [])))) := by
  have hLatest := Sequences.segment_latest (List.forall_mem_cons.mpr ⟨hValue, hSegment⟩) h.latest
  simpa using hLatest

theorem behind_segment (h : AtSurvivor before survivor days) (hValue : survivor < value)
    (hSegment : ∀ x ∈ segment, survivor < x) {next : Int} (hNext : next ≤ survivor) :
    AtSurvivor (before ++ survivor :: value :: segment) next
      (max days (StackOfStack.longest (segment.foldl StackOfStack.push ((value, 1), [])))) := by
  apply of_min _ (h.segment_latest hValue hSegment)
  intro x hx
  rcases List.mem_append.mp hx with hx | hx
  · exact hNext.trans (h.min x hx)
  · rcases List.mem_cons.mp hx with rfl | hx
    · exact hNext
    · rcases List.mem_cons.mp hx with rfl | hx
      · exact hNext.trans hValue.le
      · exact hNext.trans (hSegment x hx).le

end AtSurvivor

/-- From a survivor on, the loop gives the number of days. -/
theorem eachPlant_eq (before rest : List Int) (survivor : Int) (days : Nat)
    (hLength : (before ++ survivor :: rest).length < 2 ^ 31)
    (hAt : AtSurvivor before survivor days) :
    eachPlant (before ++ survivor :: rest) before.length days =
      some (Erosion.days (before ++ survivor :: rest)) := by
  induction hRest : rest.length using Nat.strong_induction_on
    generalizing before rest survivor days with
  | _ n ih =>
      cases rest with
      | nil =>
          rw [eachPlant_of_length_le days (by simp), ← days_eq _ hAt.latest, List.reverse_cons,
            List.reverse_reverse]
      | cons value rest =>
          rcases le_or_gt value survivor with hValue | hValue
          · have hNext := ih rest.length (by simp [← hRest]) (before ++ [survivor]) rest value days
              (by simpa using hLength) (hAt.next_survivor hValue) rfl
            rw [eachPlant_survivor before rest days hValue]
            simpa using hNext
          · obtain ⟨segment, tail, rfl, hSegment, hTail⟩ := exists_segment rest survivor
            rw [eachPlant_segment before segment tail days hLength hValue hSegment hTail]
            cases tail with
            | nil =>
                have hDays := days_eq _ (hAt.segment_latest hValue hSegment)
                rw [List.reverse_reverse] at hDays
                rw [eachPlant_of_length_le _ (by simp; omega), ← hDays, List.append_nil]
            | cons next tail =>
                have hNext := ih tail.length (by simp [← hRest]; omega)
                  (before ++ survivor :: value :: segment) tail next _ (by simpa using hLength)
                  (hAt.behind_segment hValue hSegment (hTail next rfl)) rfl
                have hPosition : (before ++ survivor :: value :: segment).length =
                    before.length + 2 + segment.length := by simp; omega
                rw [hPosition] at hNext
                simpa using hNext

/-- The single pass counts the days of the simulation. -/
theorem poisonousPlants_eq (p : List Int) (hNonempty : p ≠ []) (hLength : p.length < 2 ^ 31) :
    poisonousPlants p = some (Erosion.days p) := by
  cases p with
  | nil => exact absurd rfl hNonempty
  | cons survivor rest =>
      exact eachPlant_eq [] rest survivor 0 hLength
        ⟨by simp, by simp [withDays, dayFrom], Or.inl rfl⟩

theorem poisonousPlants_eq_two_days : poisonousPlants [0, 2, 1] = some 2 := by
  have hDays : Erosion.days [(0 : Int), 2, 1] = 2 := by
    rw [days_of_ne (by decide), days_of_ne (by decide), days_of_eq (by decide)]
  exact (poisonousPlants_eq [0, 2, 1] (by decide) (by decide)).trans (by rw [hDays])

theorem eachPlant_zeros (k m : Nat) (rest : List Int) :
    eachPlant (List.replicate k 0 ++ 0 :: (List.replicate m 0 ++ rest)) k 0 =
      eachPlant (List.replicate k 0 ++ 0 :: (List.replicate m 0 ++ rest)) (k + m) 0 := by
  induction m generalizing k with
  | zero => rfl
  | succ m ih =>
      have hFirst := eachPlant_survivor (List.replicate k 0) (List.replicate m 0 ++ rest) 0
        (le_refl (0 : Int))
      have hNext := ih (k + 1)
      rw [List.length_replicate] at hFirst
      rw [List.replicate_succ', List.append_assoc] at hNext
      rw [List.replicate_succ, List.cons_append, hFirst]
      exact hNext.trans (by rw [Nat.add_assoc, Nat.add_comm 1]; rfl)

/-- The end of a segment that does not fit an `int` is negative, so that only the first
plant of the segment is seen. -/
theorem longest_decreasing_long (p : List Int) {i stop : Nat} {value : Int}
    (hStop : stop = 2 ^ 31) (hNext : i + 1 < stop) (hValue : p[i]? = some value) :
    StackOfStack.longest_decreasing p (int i) (int stop) = some 1 := by
  have hEnd : int stop = -(2 ^ 31) := by
    rw [hStop]
    decide
  have hRounds : (-(2 ^ 31) - ((i : Int) + 1)).toNat = 0 := by omega
  rw [int_eq (by omega), hEnd, StackOfStack.longest_decreasing, atInt,
    if_pos (Int.natCast_nonneg i), Int.toNat_natCast, hValue, next, if_pos (by omega)]
  simp only [Option.bind_eq_bind, Option.bind_some, hRounds]
  rfl

theorem poisonousPlants_long (n : Nat) (hn : n + 3 = 2 ^ 31) :
    poisonousPlants (List.replicate n 0 ++ [0, 2, 1]) = some 1 := by
  have hZeros := eachPlant_zeros 0 n [2, 1]
  have hLine : (0 : Int) :: (List.replicate n 0 ++ [2, 1]) = List.replicate n 0 ++ [0, 2, 1] := by
    rw [← List.cons_append, ← List.replicate_succ, List.replicate_succ', List.append_assoc]
    rfl
  have hSurvivor : (List.replicate n (0 : Int) ++ [0, 2, 1])[n]? = some 0 := by simp
  have hValue : (List.replicate n (0 : Int) ++ [0, 2, 1])[n + 1]? = some 2 := by simp
  have hEnd : segmentEnd (List.replicate n 0 ++ [0, 2, 1]) 0 (n + 2) = n + 3 := by
    have hWhole := @segmentEnd_survivor (List.replicate n 0) [1] [] 0 2 (by decide) (by simp)
    rw [List.length_replicate] at hWhole
    exact hWhole
  have hLongest := longest_decreasing_long _ hn (by omega) hValue
  rw [poisonousPlants, ← hLine]
  refine hZeros.trans ?_
  rw [Nat.zero_add, List.replicate_zero, List.nil_append, hLine,
    eachPlant_of_getElem? 0 hSurvivor hValue, if_pos (by decide), hEnd]
  refine (congrArg (Option.bind · _) hLongest).trans ?_
  exact eachPlant_of_length_le _ (by simp)

theorem days_long (n : Nat) : Erosion.days (List.replicate n (0 : Int) ++ [0, 2, 1]) = 2 := by
  have hZeros : LatestDay (withDays (List.replicate (n + 1) (0 : Int))) 0 := by
    generalize n + 1 = m
    induction m with
    | zero => exact ⟨by simp [withDays], Or.inl rfl⟩
    | succ m ih => exact ih.survivor fun x hx => (List.eq_of_mem_replicate hx).ge
  have hLatest :=
    @segment_latest _ _ 0 2 _ [1] _ (show ∀ x ∈ [(2 : Int), 1], 0 < x by decide) hZeros
  have hLongest : StackOfStack.longest ([1].foldl StackOfStack.push (((2 : Int), 1), [])) = 2 := by
    decide
  rw [hLongest] at hLatest
  simpa using days_eq _ hLatest

/-- With a segment that ends behind the range of `int`. -/
theorem not_poisonousPlants_eq :
    poisonousPlants (List.replicate (2 ^ 31 - 3) 0 ++ [0, 2, 1]) ≠
      some (Erosion.days (List.replicate (2 ^ 31 - 3) (0 : Int) ++ [0, 2, 1])) := by
  rw [poisonousPlants_long _ (by omega), days_long]
  decide

end CppPerf.Sequences
