import CppPerf.Semantics.OrderedMap
import CppPerf.Semantics.Run
import Mathlib.Data.Finset.Insert
import Mathlib.Data.Int.Order.Basic
import Mathlib.Order.Bounds.Defs

/-! The registry of `PhoneRegistry.cpp`. A number is a `long long`. The only
arithmetic is next to a number inside of an interval, so the numbers are
integers. -/
namespace CppPerf.Registry

open Ordered

/-- `phone_unused` maps the end of an interval to its start. -/
structure PhoneRegistry where
  phone_used : Finset Int
  phone_unused : OrderedMap Int Int

namespace PhoneRegistry

def construct : PhoneRegistry := ⟨∅, OrderedMap.empty.set 9999999999 100⟩

def isNumberGiven (r : PhoneRegistry) (phoneNumber : Int) : Bool := phoneNumber ∈ r.phone_used

/-- The part of `markNumberAsGiven` that updates `phone_unused`. -/
def shrink (m : OrderedMap Int Int) (phoneNumber : Int) : OrderedMap Int Int :=
  match m.lowerBound phoneNumber with
  | none => m
  | some (last, start) =>
      if phoneNumber < start then m
      else if phoneNumber = start then
        if start = last then m.erase last else m.set last (start + 1)
      else if phoneNumber = last then (m.set (phoneNumber - 1) start).erase last
      else (m.set (phoneNumber - 1) start).set last (phoneNumber + 1)

def markNumberAsGiven (r : PhoneRegistry) (phoneNumber : Int) : PhoneRegistry :=
  ⟨insert phoneNumber r.phone_used, shrink r.phone_unused phoneNumber⟩

def getAFreeNumber (r : PhoneRegistry) : PhoneRegistry × Int :=
  match r.phone_unused.first with
  | none => (r, -1)
  | some (last, start) =>
      ({ r with
         phone_unused :=
           if start = last then r.phone_unused.erase last
           else r.phone_unused.set last (start + 1) },
       start)

/-- A registry with the numbers that were marked or handed out so far. -/
structure World where
  r : PhoneRegistry
  taken : List Int

inductive Call where
  | markNumberAsGiven (phoneNumber : Int)
  | getAFreeNumber

namespace World

def initial : World := ⟨construct, []⟩

def step (w : World) : Call → Option World
  | .markNumberAsGiven phoneNumber =>
      some ⟨w.r.markNumberAsGiven phoneNumber, phoneNumber :: w.taken⟩
  | .getAFreeNumber =>
      let result := w.r.getAFreeNumber
      some ⟨result.1, if result.2 = -1 then w.taken else result.2 :: w.taken⟩

end World
end PhoneRegistry
end CppPerf.Registry

/-! The intervals of `phone_unused` are the numbers that were neither marked nor
handed out. -/
namespace CppPerf.Registry.PhoneRegistry

open Ordered Transition

/-- The number lies in one of the intervals. -/
def Covers (m : OrderedMap Int Int) (n : Int) : Prop := ∃ e ∈ m.entries, e.2 ≤ n ∧ n ≤ e.1

/-- The intervals are not empty and do not overlap. -/
structure Apart (m : OrderedMap Int Int) : Prop where
  nonempty : ∀ e ∈ m.entries, e.2 ≤ e.1
  disjoint : ∀ e ∈ m.entries, ∀ e' ∈ m.entries, e.1 < e'.1 → e.1 < e'.2

variable {m : OrderedMap Int Int} {last start n : Int}

/-- The lower bound of a number is the only interval that can contain it. -/
theorem covers_iff_of_lowerBound (hm : Apart m) (h : m.lowerBound n = some (last, start)) :
    Covers m n ↔ start ≤ n := by
  obtain ⟨hMem, hLe, hLeast⟩ := m.lowerBound_eq_some h
  constructor
  · rintro ⟨e, he, hStart, hEnd⟩
    rcases hLeast e he hEnd with rfl | hAfter
    · exact hStart
    · have hBehind := hm.disjoint (last, start) hMem e he hAfter
      dsimp only at hLe hBehind
      omega
  · intro hStart
    exact ⟨(last, start), hMem, hStart, hLe⟩

theorem not_covers_of_lowerBound (h : m.lowerBound n = none) : ¬Covers m n := by
  rintro ⟨e, he, _, hEnd⟩
  have hBelow := m.lowerBound_eq_none h e he
  omega

/-- Another interval lies on one side. -/
theorem Apart.beside (hm : Apart m) (hMem : (last, start) ∈ m.entries) {e : Int × Int}
    (he : e ∈ m.entries) : e = (last, start) ∨ e.1 < start ∨ last < e.2 := by
  rcases lt_trichotomy e.1 last with hBefore | hSame | hAfter
  · exact Or.inr (Or.inl (hm.disjoint e he (last, start) hMem hBefore))
  · exact Or.inl (m.eq_of_mem he hMem hSame)
  · exact Or.inr (Or.inr (hm.disjoint (last, start) hMem e he hAfter))

/-- An interval is replaced by pieces that leave out one of its numbers. -/
theorem replace_spec (hm : Apart m) (hMem : (last, start) ∈ m.entries) (hFirst : start ≤ n)
    (hLast : n ≤ last) {m' : OrderedMap Int Int} (pieces : List (Int × Int))
    (hEntries : ∀ e, e ∈ m'.entries ↔ e ∈ pieces ∨ e ∈ m.entries ∧ e.1 ≠ last)
    (hInside : ∀ e ∈ pieces, start ≤ e.2 ∧ e.2 ≤ e.1 ∧ e.1 ≤ last)
    (hPieces : ∀ e ∈ pieces, ∀ e' ∈ pieces, e.1 < e'.1 → e.1 < e'.2)
    (hUnion : ∀ x, (∃ e ∈ pieces, e.2 ≤ x ∧ x ≤ e.1) ↔ start ≤ x ∧ x ≤ last ∧ x ≠ n) :
    Apart m' ∧ ∀ x, Covers m' x ↔ Covers m x ∧ x ≠ n := by
  have hOther : ∀ e ∈ m.entries, e.1 ≠ last → e.1 < start ∨ last < e.2 := by
    rintro e he hKey
    rcases hm.beside hMem he with rfl | hSide
    · exact absurd rfl hKey
    · exact hSide
  constructor
  · constructor
    · intro e he
      rcases (hEntries e).mp he with hPiece | ⟨hOld, _⟩
      · exact (hInside e hPiece).2.1
      · exact hm.nonempty e hOld
    · intro e he e' he' hKeys
      rcases (hEntries e).mp he with hPiece | ⟨hOld, hKey⟩
      · obtain ⟨hFrom, hOrder, hTo⟩ := hInside e hPiece
        rcases (hEntries e').mp he' with hPiece' | ⟨hOld', hKey'⟩
        · exact hPieces e hPiece e' hPiece' hKeys
        · have hSide := hOther e' hOld' hKey'
          omega
      · have hSide := hOther e hOld hKey
        have hSelf := hm.nonempty e hOld
        rcases (hEntries e').mp he' with hPiece' | ⟨hOld', _⟩
        · obtain ⟨hFrom', hOrder', hTo'⟩ := hInside e' hPiece'
          omega
        · exact hm.disjoint e hOld e' hOld' hKeys
  · intro x
    constructor
    · rintro ⟨e, he, hFrom, hTo⟩
      rcases (hEntries e).mp he with hPiece | ⟨hOld, hKey⟩
      · obtain ⟨hStart, hEnd, hx⟩ := (hUnion x).mp ⟨e, hPiece, hFrom, hTo⟩
        exact ⟨⟨(last, start), hMem, hStart, hEnd⟩, hx⟩
      · have hSide := hOther e hOld hKey
        refine ⟨⟨e, hOld, hFrom, hTo⟩, ?_⟩
        omega
    · rintro ⟨⟨e, he, hFrom, hTo⟩, hx⟩
      by_cases hKey : e.1 = last
      · obtain rfl := m.eq_of_mem he hMem hKey
        obtain ⟨piece, hPiece, hBounds⟩ := (hUnion x).mpr ⟨hFrom, hTo, hx⟩
        exact ⟨piece, (hEntries piece).mpr (Or.inl hPiece), hBounds⟩
      · exact ⟨e, (hEntries e).mpr (Or.inr ⟨he, hKey⟩), hFrom, hTo⟩

/-- The first number of an interval leaves. -/
theorem shrink_left (hm : Apart m) (hMem : (last, start) ∈ m.entries) :
    Apart (if start = last then m.erase last else m.set last (start + 1)) ∧
      ∀ x, Covers (if start = last then m.erase last else m.set last (start + 1)) x ↔
        Covers m x ∧ x ≠ start := by
  have hLe : start ≤ last := hm.nonempty (last, start) hMem
  split_ifs with hSingle
  · apply replace_spec hm hMem le_rfl hLe []
    · simp
    · simp
    · simp
    · intro x
      simp only [List.not_mem_nil, false_and, exists_false, false_iff]
      omega
  · apply replace_spec hm hMem le_rfl hLe [(last, start + 1)]
    · simp
    · simp only [List.mem_singleton, forall_eq]
      omega
    · simp
    · intro x
      simp only [List.mem_singleton, exists_eq_left]
      omega

/-- No interval ends right before a number inside of another one. -/
theorem Apart.end_ne_pred (hm : Apart m) (hMem : (last, start) ∈ m.entries) (hFirst : start < n)
    (hLast : n ≤ last) {e : Int × Int} (he : e ∈ m.entries) : e.1 ≠ n - 1 := by
  rcases hm.beside hMem he with rfl | hSide
  · dsimp only
    omega
  · have hSelf := hm.nonempty e he
    omega

/-- The last number of an interval leaves. -/
theorem shrink_right (hm : Apart m) (hMem : (last, start) ∈ m.entries) (hMore : start < last) :
    Apart ((m.set (last - 1) start).erase last) ∧
      ∀ x, Covers ((m.set (last - 1) start).erase last) x ↔ Covers m x ∧ x ≠ last := by
  apply replace_spec hm hMem hMore.le le_rfl [(last - 1, start)]
  · intro e
    simp only [OrderedMap.mem_erase, OrderedMap.mem_set, List.mem_singleton]
    constructor
    · rintro ⟨rfl | ⟨hOld, _⟩, hKey⟩
      · exact Or.inl rfl
      · exact Or.inr ⟨hOld, hKey⟩
    · rintro (rfl | ⟨hOld, hKey⟩)
      · exact ⟨Or.inl rfl, by dsimp only; omega⟩
      · exact ⟨Or.inr ⟨hOld, hm.end_ne_pred hMem hMore le_rfl hOld⟩, hKey⟩
  · simp only [List.mem_singleton, forall_eq]
    omega
  · simp
  · intro x
    simp only [List.mem_singleton, exists_eq_left]
    omega

/-- A number inside of an interval leaves, and splits it. -/
theorem shrink_inside (hm : Apart m) (hMem : (last, start) ∈ m.entries) (hFirst : start < n)
    (hLast : n < last) :
    Apart ((m.set (n - 1) start).set last (n + 1)) ∧
      ∀ x, Covers ((m.set (n - 1) start).set last (n + 1)) x ↔ Covers m x ∧ x ≠ n := by
  apply replace_spec hm hMem hFirst.le hLast.le [(n - 1, start), (last, n + 1)]
  · intro e
    simp only [OrderedMap.mem_set, List.mem_cons, List.not_mem_nil, or_false]
    constructor
    · rintro (rfl | ⟨rfl | ⟨hOld, _⟩, hKey⟩)
      · exact Or.inl (Or.inr rfl)
      · exact Or.inl (Or.inl rfl)
      · exact Or.inr ⟨hOld, hKey⟩
    · rintro ((rfl | rfl) | ⟨hOld, hKey⟩)
      · exact Or.inr ⟨Or.inl rfl, by dsimp only; omega⟩
      · exact Or.inl rfl
      · exact Or.inr ⟨Or.inr ⟨hOld, hm.end_ne_pred hMem hFirst hLast.le hOld⟩, hKey⟩
  · simp only [List.mem_cons, List.not_mem_nil, or_false, forall_eq_or_imp, forall_eq]
    omega
  · simp only [List.mem_cons, List.not_mem_nil, or_false, forall_eq_or_imp, forall_eq]
    omega
  · intro x
    simp only [List.mem_cons, List.not_mem_nil, or_false, exists_eq_or_imp, exists_eq_left]
    omega

/-- A number that no interval contains changes nothing. -/
theorem covers_of_not_covers (hNot : ¬Covers m n) (x : Int) :
    Covers m x ↔ Covers m x ∧ x ≠ n := by
  constructor
  · intro hx
    refine ⟨hx, ?_⟩
    rintro rfl
    exact hNot hx
  · exact And.left

theorem shrink_spec (hm : Apart m) (n : Int) :
    Apart (shrink m n) ∧ ∀ x, Covers (shrink m n) x ↔ Covers m x ∧ x ≠ n := by
  rw [shrink]
  cases hBound : m.lowerBound n with
  | none => exact ⟨hm, covers_of_not_covers (not_covers_of_lowerBound hBound)⟩
  | some e =>
      obtain ⟨last, start⟩ := e
      obtain ⟨hMem, hLast, _⟩ := m.lowerBound_eq_some hBound
      dsimp only at hLast ⊢
      split_ifs with hOutside hFirst hSingle hEnd
      · have hNot := (covers_iff_of_lowerBound hm hBound).not.mpr (not_le.mpr hOutside)
        exact ⟨hm, covers_of_not_covers hNot⟩
      · subst hFirst
        have hSpec := shrink_left hm hMem
        rwa [if_pos hSingle] at hSpec
      · subst hFirst
        have hSpec := shrink_left hm hMem
        rwa [if_neg hSingle] at hSpec
      · subst hEnd
        exact shrink_right hm hMem (by omega)
      · exact shrink_inside hm hMem (by omega) (by omega)

/-- With its intervals apart, a registry hands out the least free number. -/
theorem getAFreeNumber_spec {r : PhoneRegistry} (hm : Apart r.phone_unused) :
    (r.getAFreeNumber.2 = -1 ∧ r.getAFreeNumber.1 = r ∧ ∀ x, ¬Covers r.phone_unused x) ∨
      (Covers r.phone_unused r.getAFreeNumber.2 ∧
        (∀ x, Covers r.phone_unused x → r.getAFreeNumber.2 ≤ x) ∧
        Apart r.getAFreeNumber.1.phone_unused ∧
        (∀ x, Covers r.getAFreeNumber.1.phone_unused x ↔
          Covers r.phone_unused x ∧ x ≠ r.getAFreeNumber.2) ∧
        r.getAFreeNumber.1.phone_used = r.phone_used) := by
  rw [getAFreeNumber]
  cases hFirst : r.phone_unused.first with
  | none =>
      refine Or.inl ⟨rfl, rfl, ?_⟩
      rintro x ⟨e, he, _⟩
      exact r.phone_unused.first_eq_none_iff.mp hFirst e he
  | some e =>
      obtain ⟨last, start⟩ := e
      obtain ⟨hMem, hLeast⟩ := r.phone_unused.first_eq_some hFirst
      have hLe : start ≤ last := hm.nonempty (last, start) hMem
      obtain ⟨hApart, hCovers⟩ := shrink_left hm hMem
      refine Or.inr ⟨⟨(last, start), hMem, le_rfl, hLe⟩, ?_, hApart, hCovers, rfl⟩
      rintro x ⟨e, he, hFrom, _⟩
      rcases hLeast e he with rfl | hAfter
      · exact hFrom
      · have hBehind := hm.disjoint (last, start) hMem e he hAfter
        dsimp only at hBehind ⊢
        omega

namespace World

/-- A valid number that was never marked and never handed out. -/
def Free (w : World) (n : Int) : Prop := 100 ≤ n ∧ n ≤ 9999999999 ∧ n ∉ w.taken

/-- The intervals are the free numbers, and the next number that is handed out
is the least of them. -/
structure TracksFree (w : World) : Prop where
  apart : Apart w.r.phone_unused
  union : ∀ n, Covers w.r.phone_unused n ↔ w.Free n
  least : (∃ n, w.Free n) → IsLeast {n | w.Free n} w.r.getAFreeNumber.2
  noneLeft : w.r.getAFreeNumber.2 = -1 ↔ ∀ n, ¬w.Free n

variable {w w' : World}

theorem TracksFree.of_union (hApart : Apart w.r.phone_unused)
    (hUnion : ∀ n, Covers w.r.phone_unused n ↔ w.Free n) : w.TracksFree := by
  rcases getAFreeNumber_spec hApart with ⟨hResult, _, hNone⟩ | ⟨hIn, hLeast, _⟩
  · have hNoneFree : ∀ n, ¬w.Free n := fun n hn => hNone n ((hUnion n).mpr hn)
    exact ⟨hApart, hUnion, fun ⟨n, hn⟩ => absurd hn (hNoneFree n),
      fun _ => hNoneFree, fun _ => hResult⟩
  · have hFree := (hUnion _).mp hIn
    refine ⟨hApart, hUnion, fun _ => ⟨hFree, fun n hn => hLeast n ((hUnion n).mpr hn)⟩, ?_, ?_⟩
    · intro hResult
      have hLow := hFree.1
      omega
    · intro hNone
      exact absurd hFree (hNone _)

theorem initial_tracksFree : initial.TracksFree := by
  have hEntries : ∀ e, e ∈ initial.r.phone_unused.entries ↔ e = (9999999999, 100) := by
    intro e
    simp [initial, construct, OrderedMap.empty]
  apply TracksFree.of_union
  · constructor
    · intro e he
      obtain rfl := (hEntries e).mp he
      decide
    · intro e he e' he' hKeys
      obtain rfl := (hEntries e).mp he
      obtain rfl := (hEntries e').mp he'
      exact absurd hKeys (lt_irrefl _)
  · intro n
    simp only [Covers, hEntries, exists_eq_left, Free]
    simp [initial]

theorem TracksFree.step (h : w.TracksFree) {call : Call} (hStep : w.step call = some w') :
    w'.TracksFree := by
  cases call with
  | markNumberAsGiven phoneNumber =>
      obtain rfl := Option.some.inj hStep
      obtain ⟨hApart, hCovers⟩ := shrink_spec h.apart phoneNumber
      refine TracksFree.of_union hApart fun n => ?_
      simp only [PhoneRegistry.markNumberAsGiven, hCovers, h.union, Free, List.mem_cons, not_or]
      tauto
  | getAFreeNumber =>
      obtain rfl := Option.some.inj hStep
      rcases getAFreeNumber_spec h.apart with ⟨hResult, hSame, _⟩ | ⟨hIn, _, hApart, hCovers, _⟩
      · refine TracksFree.of_union ?_ fun n => ?_
        · rw [hSame]
          exact h.apart
        · simp only [hSame, h.union, Free, if_pos hResult]
      · have hLow := ((h.union _).mp hIn).1
        refine TracksFree.of_union hApart fun n => ?_
        rw [if_neg (by omega)]
        simp only [hCovers, h.union, Free, List.mem_cons, not_or]
        tauto

/-- After every sequence of calls the registry knows the free numbers. -/
theorem always_tracksFree (calls : List Call) :
    Always World.step TracksFree initial calls :=
  always_of_invariant (fun _ _ _ h hStep => h.step hStep) calls initial_tracksFree

end World
end CppPerf.Registry.PhoneRegistry

/-! `phone_used` and `phone_unused` are complementary as long as nothing is
handed out: `getAFreeNumber` takes a number out of the intervals and does not
put it into the set. -/
namespace CppPerf.Registry.PhoneRegistry

open Ordered Transition

theorem isNumberGiven_iff {r : PhoneRegistry} {n : Int} :
    r.isNumberGiven n = true ↔ n ∈ r.phone_used := decide_eq_true_iff

namespace World

/-- A valid number is given exactly if it lies in no interval. -/
def Agree (w : World) : Prop :=
  ∀ n, 100 ≤ n → n ≤ 9999999999 → (w.r.isNumberGiven n = true ↔ ¬Covers w.r.phone_unused n)

/-- A number is asked for only when there is none. -/
def HandsOutNothing (w : World) : Call → Prop
  | .markNumberAsGiven _ => True
  | .getAFreeNumber => w.r.phone_unused.entries = []

/-- The invariant. -/
structure Complementary (w : World) : Prop where
  tracks : w.TracksFree
  agree : w.Agree

variable {w w' : World}

theorem Complementary.step (h : w.Complementary) {call : Call} (hGuard : w.HandsOutNothing call)
    (hStep : w.step call = some w') : w'.Complementary := by
  refine ⟨h.tracks.step hStep, ?_⟩
  cases call with
  | markNumberAsGiven phoneNumber =>
      obtain rfl := Option.some.inj hStep
      intro n hLow hHigh
      have hAgree := h.agree n hLow hHigh
      obtain ⟨_, hCovers⟩ := shrink_spec h.tracks.apart phoneNumber
      rw [isNumberGiven_iff] at hAgree
      simp only [isNumberGiven_iff, PhoneRegistry.markNumberAsGiven, Finset.mem_insert, hAgree,
        hCovers]
      tauto
  | getAFreeNumber =>
      obtain rfl := Option.some.inj hStep
      have hNone : w.r.phone_unused.first = none := by
        rw [OrderedMap.first, show w.r.phone_unused.entries = [] from hGuard, List.head?_nil]
      have hSame : w.r.getAFreeNumber.1 = w.r := by rw [getAFreeNumber, hNone]
      intro n hLow hHigh
      rw [hSame]
      exact h.agree n hLow hHigh

/-- The number that is handed out is in neither view. -/
theorem Complementary.not_agree (h : w.Complementary) {call : Call}
    (hBad : ¬w.HandsOutNothing call) (hStep : w.step call = some w') : ¬w'.Agree := by
  cases call with
  | markNumberAsGiven phoneNumber => exact absurd trivial hBad
  | getAFreeNumber =>
      obtain rfl := Option.some.inj hStep
      rcases getAFreeNumber_spec h.tracks.apart with ⟨_, _, hNone⟩ | ⟨hIn, _, _, hCovers, hUsed⟩
      · -- An empty map would have met the condition.
        exfalso
        apply hBad
        rw [HandsOutNothing, List.eq_nil_iff_forall_not_mem]
        intro e he
        exact hNone e.1 ⟨e, he, h.tracks.apart.nonempty e he, le_rfl⟩
      · obtain ⟨hLow, hHigh, _⟩ := (h.tracks.union _).mp hIn
        intro hAgree
        have hAfter := hAgree _ hLow hHigh
        have hBefore := h.agree _ hLow hHigh
        simp only [isNumberGiven_iff, hUsed, hCovers] at hAfter hBefore
        tauto

theorem initial_complementary : initial.Complementary := by
  refine ⟨initial_tracksFree, fun n hLow hHigh => ?_⟩
  have hFree : initial.Free n := ⟨hLow, hHigh, List.not_mem_nil⟩
  have hIn := (initial_tracksFree.union n).mpr hFree
  have hNotGiven : n ∉ initial.r.phone_used := Finset.notMem_empty n
  simp only [isNumberGiven_iff, hNotGiven, hIn, not_true]

/-- The two views agree throughout a run if and only if no number is handed
out in it. -/
theorem agree_iff_handsOutNothing (calls : List Call) :
    Always World.step Agree initial calls ↔ Guarded World.step HandsOutNothing initial calls := by
  have hTotal : ∀ (w : World) (call : Call), (w.step call).isSome := by
    intro w call
    cases call with
    | markNumberAsGiven phoneNumber => rfl
    | getAFreeNumber => rfl
  obtain ⟨finish, hRun⟩ := run_of_total hTotal initial calls
  exact always_iff_guarded Complementary (fun _ _ _ h hGuard hStep => h.step hGuard hStep)
    (fun _ h => h.agree) (fun _ _ _ h hBad hStep => h.not_agree hBad hStep)
    initial_complementary hRun

/-- The first number that is handed out is not given, and no longer free. -/
theorem handed_out_not_given :
    ∃ w, run World.step initial [.getAFreeNumber] = some w ∧ w.taken = [100] ∧
      w.r.isNumberGiven 100 = false ∧ ¬Covers w.r.phone_unused 100 ∧ ¬w.Agree := by
  have hFinish : ∃ w, run World.step initial [.getAFreeNumber] = some w ∧ w.taken = [100] ∧
      w.r.isNumberGiven 100 = false ∧ w.r.phone_unused.entries = [(9999999999, 101)] :=
    ⟨_, rfl, rfl, rfl, rfl⟩
  obtain ⟨w, hRun, hTaken, hNotGiven, hEntries⟩ := hFinish
  have hGone : ¬Covers w.r.phone_unused 100 := by
    simp [Covers, hEntries]
  refine ⟨w, hRun, hTaken, hNotGiven, hGone, fun hAgree => ?_⟩
  have hGiven := (hAgree 100 le_rfl (by decide)).mpr hGone
  rw [hNotGiven] at hGiven
  cases hGiven

end World
end CppPerf.Registry.PhoneRegistry
