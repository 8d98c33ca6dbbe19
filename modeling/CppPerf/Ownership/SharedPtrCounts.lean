import CppPerf.Ownership.SharedPtr

/-! The handles and the counts of the control blocks agree. A count has 32
bits, so what agrees is the number of the handles up to a multiple of `2 ^ 32`,
and the last handle is recognised as long as no other number of handles looks
like one. -/
namespace CppPerf.Ownership.SharedPtr

open Indexed Transition

def holdsCounter (counter : Nat) : Option SharedPtr → Bool
  | none => false
  | some h => h.counter == counter

/-- Number of handles that hold the control block. -/
def holders (v : Vec (Option SharedPtr)) (counter : Nat) : Nat := v.count (holdsCounter counter)

/-- One of the handles is like this. -/
def Holds (v : Vec (Option SharedPtr)) (h : SharedPtr) : Prop :=
  ∃ i < v.size, v.get i = some h

/-- What a control block with so many handles contains, if it exists. -/
def countOf (n : Nat) : Option Int32 := if n = 0 then none else some (Int32.ofNat n)

variable {v v' : Vec (Option SharedPtr)} {h : SharedPtr} {i counter : Nat}

theorem holders_pos_iff : 0 < holders v counter ↔ ∃ h, Holds v h ∧ h.counter = counter := by
  rw [holders, Vec.count_pos_iff]
  constructor
  · rintro ⟨i, hi, hSlot⟩
    cases hGet : v.get i with
    | none =>
        rw [hGet] at hSlot
        cases hSlot
    | some h =>
        rw [hGet] at hSlot
        exact ⟨h, ⟨i, hi, hGet⟩, beq_iff_eq.mp hSlot⟩
  · rintro ⟨h, ⟨i, hi, hGet⟩, rfl⟩
    exact ⟨i, hi, by simp [hGet, holdsCounter]⟩

theorem holders_set (x : Option SharedPtr) (hi : i < v.size) (counter : Nat) :
    holders (v.set i x) counter + (holdsCounter counter (v.get i)).toNat =
      holders v counter + (holdsCounter counter x).toNat :=
  v.count_set (holdsCounter counter) i x hi

theorem holders_push (v : Vec (Option SharedPtr)) (x : Option SharedPtr) (counter : Nat) :
    holders (v.push x) counter = holders v counter + (holdsCounter counter x).toNat :=
  v.count_push (holdsCounter counter) x

theorem holdsCounter_empty (hCounter : counter ≠ 0) : holdsCounter counter (some {}) = false :=
  beq_false_of_ne hCounter.symm

theorem holds_set (x : Option SharedPtr) (hi : i < v.size) :
    Holds (v.set i x) h ↔ x = some h ∨ ∃ k < v.size, k ≠ i ∧ v.get k = some h := by
  constructor
  · rintro ⟨k, hk, hGet⟩
    rw [Vec.get_set] at hGet
    split_ifs at hGet with hSame
    · exact Or.inl hGet
    · exact Or.inr ⟨k, hk, hSame, hGet⟩
  · rintro (rfl | ⟨k, hk, hOther, hGet⟩)
    · exact ⟨i, hi, Vec.get_set_self ..⟩
    · exact ⟨k, hk, (Vec.get_set_of_ne _ _ hOther).trans hGet⟩

theorem holds_push (x : Option SharedPtr) : Holds (v.push x) h ↔ x = some h ∨ Holds v h := by
  constructor
  · rintro ⟨k, hk, hGet⟩
    rcases Nat.lt_succ_iff_lt_or_eq.mp hk with hLt | rfl
    · exact Or.inr ⟨k, hLt, (Vec.get_push_of_lt _ _ hLt).symm.trans hGet⟩
    · exact Or.inl ((Vec.get_push_size _ _).symm.trans hGet)
  · rintro (rfl | ⟨k, hk, hGet⟩)
    · exact ⟨v.size, Nat.lt_succ_self _, Vec.get_push_size _ _⟩
    · exact ⟨k, Nat.lt_succ_of_lt hk, (Vec.get_push_of_lt _ _ hk).trans hGet⟩

namespace World

/-- A control block counts its handles, as far as an `int` can. An object
exists as long as a handle holds it, it is deleted once, and no handle holds an
object that was deleted. -/
structure Sound (w : World) : Prop where
  counted : ∀ counter ≠ 0, w.refs counter = countOf (holders w.handles counter)
  exact : ∀ counter ≠ 0, ∀ count, w.refs counter = some count →
    holders w.handles counter < 2 ^ 31 → count.toInt = holders w.handles counter
  objects : ∀ naked ≠ 0, (w.objects naked = true ↔ ∃ h, Holds w.handles h ∧ h.naked = naked)
  deletedOnce : w.undefined = false

/-- The handle whose destructor lets go of its object, or whose assignment does. -/
def released (w : World) : Action → Option Nat
  | .construct _ _ => none
  | .copyConstruct _ => none
  | .moveConstruct _ => none
  | .copyAssign this other =>
      if this ≠ other ∧ (w.handle this).naked ≠ (w.handle other).naked then some this else none
  | .moveAssign this other =>
      if this ≠ other ∧ (w.handle this).naked ≠ (w.handle other).naked then some this else none
  | .destroy this => some this

/-- If the number of handles looks like one, it is one. -/
def TellsLast (w : World) (action : Action) : Prop :=
  ∀ i, w.released action = some i → (w.handle i).naked ≠ 0 →
    holders w.handles (w.handle i).counter % 2 ^ 32 = 1 →
      holders w.handles (w.handle i).counter = 1

structure Consistent (w : World) : Prop where
  null : ∀ h, Holds w.handles h → (h.naked = 0 ↔ h.counter = 0)
  pairs : ∀ h h', Holds w.handles h → Holds w.handles h' →
    (h.naked = h'.naked ↔ h.counter = h'.counter)
  counted : ∀ counter ≠ 0, w.refs counter = countOf (holders w.handles counter)
  objects : ∀ naked ≠ 0, (w.objects naked = true ↔ ∃ h, Holds w.handles h ∧ h.naked = naked)
  defined : w.undefined = false

variable {w w' : World}

namespace Consistent

theorem sound (hc : w.Consistent) : w.Sound where
  counted := hc.counted
  exact := by
    intro counter hCounter count hCount hFew
    rw [hc.counted counter hCounter, countOf] at hCount
    split_ifs at hCount with hNone
    obtain rfl := Option.some.inj hCount
    exact Int32.toInt_ofNat_of_lt hFew
  objects := hc.objects
  deletedOnce := hc.defined

/-- Nothing holds the null pointer but a handle without a control block. -/
theorem eq_empty (hc : w.Consistent) (hHolds : Holds w.handles h) (hNull : h.naked = 0) :
    h = {} := by
  have hCounter := (hc.null h hHolds).mp hNull
  cases h
  simp_all

theorem counter_ne (hc : w.Consistent) (hHolds : Holds w.handles h) (hSome : h.naked ≠ 0) :
    h.counter ≠ 0 := fun hZero => hSome ((hc.null h hHolds).mpr hZero)

theorem null_of_subset (hc : w.Consistent)
    (hSub : ∀ h, Holds v' h → Holds w.handles h ∨ h = {}) (h : SharedPtr) (hHolds : Holds v' h) :
    h.naked = 0 ↔ h.counter = 0 := by
  rcases hSub h hHolds with hOld | rfl
  · exact hc.null h hOld
  · exact Iff.rfl

theorem pairs_of_subset (hc : w.Consistent)
    (hSub : ∀ h, Holds v' h → Holds w.handles h ∨ h = {}) (h h' : SharedPtr)
    (hHolds : Holds v' h) (hHolds' : Holds v' h') :
    h.naked = h'.naked ↔ h.counter = h'.counter := by
  rcases hSub h hHolds with hOld | rfl
  · rcases hSub h' hHolds' with hOld' | rfl
    · exact hc.pairs h h' hOld hOld'
    · exact hc.null h hOld
  · rcases hSub h' hHolds' with hOld' | rfl
    · rw [eq_comm, hc.null h' hOld', eq_comm]
    · exact Iff.rfl

theorem objects_of_same (hc : w.Consistent)
    (hSub : ∀ h, Holds v' h → Holds w.handles h ∨ h = {})
    (hSup : ∀ h, h.naked ≠ 0 → Holds w.handles h → Holds v' h) (naked : Nat) (hNaked : naked ≠ 0) :
    w.objects naked = true ↔ ∃ h, Holds v' h ∧ h.naked = naked := by
  rw [hc.objects naked hNaked]
  constructor
  · rintro ⟨h, hHolds, rfl⟩
    exact ⟨h, hSup h hNaked hHolds, rfl⟩
  · rintro ⟨h, hHolds, rfl⟩
    rcases hSub h hHolds with hOld | rfl
    · exact ⟨h, hOld, rfl⟩
    · exact absurd rfl hNaked

/-- Handles come and go that hold nothing. -/
theorem rearrange (hc : w.Consistent) (hSub : ∀ h, Holds v' h → Holds w.handles h ∨ h = {})
    (hSup : ∀ h, h.naked ≠ 0 → Holds w.handles h → Holds v' h)
    (hSame : ∀ counter ≠ 0, holders v' counter = holders w.handles counter) :
    ({ w with handles := v' } : World).Consistent where
  null := hc.null_of_subset hSub
  pairs := hc.pairs_of_subset hSub
  counted := by
    intro counter hCounter
    rw [hSame counter hCounter]
    exact hc.counted counter hCounter
  objects := hc.objects_of_same hSub hSup
  defined := hc.defined

/-- One control block has more handles, or fewer, and some are left. -/
theorem recount (hc : w.Consistent) (hSub : ∀ h, Holds v' h → Holds w.handles h ∨ h = {})
    (hSup : ∀ h, h.naked ≠ 0 → Holds w.handles h → Holds v' h) {count : Int32}
    (hCount : countOf (holders v' counter) = some count)
    (hSame : ∀ c ≠ 0, c ≠ counter → holders v' c = holders w.handles c) :
    ({ w with handles := v', refs := Function.update w.refs counter (some count) } :
      World).Consistent where
  null := hc.null_of_subset hSub
  pairs := hc.pairs_of_subset hSub
  counted := by
    intro c hCounter
    dsimp only
    by_cases hEq : c = counter
    · rw [hEq, Function.update_self, hCount]
    · rw [Function.update_of_ne hEq, hSame c hCounter hEq]
      exact hc.counted c hCounter
  objects := hc.objects_of_same hSub hSup
  defined := hc.defined

/-- The last handle has let go, so the object and the control block go too. -/
theorem delete (hc : w.Consistent) (hSub : ∀ h, Holds v' h → Holds w.handles h ∨ h = {})
    (hSup : ∀ x, x.naked ≠ 0 → x ≠ h → Holds w.handles x → Holds v' x)
    (hHolds : Holds w.handles h) (hGone : holders v' h.counter = 0)
    (hSame : ∀ c ≠ 0, c ≠ h.counter → holders v' c = holders w.handles c) :
    ({ w with
        handles := v'
        objects := Function.update w.objects h.naked false
        refs := Function.update w.refs h.counter none } : World).Consistent where
  null := hc.null_of_subset hSub
  pairs := hc.pairs_of_subset hSub
  counted := by
    intro c hCounter
    dsimp only
    by_cases hEq : c = h.counter
    · rw [hEq, Function.update_self, hGone]
      rfl
    · rw [Function.update_of_ne hEq, hSame c hCounter hEq]
      exact hc.counted c hCounter
  objects := by
    intro naked hNaked
    -- What is still held was held before, together with its control block.
    have hOld : ∀ x, Holds v' x → x.naked ≠ 0 → Holds w.handles x := by
      intro x hx hSome
      rcases hSub x hx with hOld | rfl
      · exact hOld
      · exact absurd rfl hSome
    dsimp only
    by_cases hEq : naked = h.naked
    · subst hEq
      rw [Function.update_self]
      constructor
      · intro hFalse
        cases hFalse
      · rintro ⟨x, hx, hSameObject⟩
        have hSameBlock := (hc.pairs x h (hOld x hx (by omega)) hHolds).mp hSameObject
        have hPos := holders_pos_iff.mpr ⟨x, hx, hSameBlock⟩
        omega
    · rw [Function.update_of_ne hEq, hc.objects naked hNaked]
      constructor
      · rintro ⟨x, hx, rfl⟩
        exact ⟨x, hSup x hNaked (fun hSelf => hEq (by rw [hSelf])) hx, rfl⟩
      · rintro ⟨x, hx, rfl⟩
        exact ⟨x, hOld x hx hNaked, rfl⟩
  defined := hc.defined

/-- A new object with its first handle. -/
theorem fresh (hc : w.Consistent) {data : Nat} (hData : data ≠ 0)
    (hObject : w.objects data = false) (hCounter : counter ≠ 0) (hRef : w.refs counter = none) :
    ({ w with
        objects := Function.update w.objects data true
        refs := Function.update w.refs counter (some 1) }.pushHandle
      ⟨data, counter⟩).Consistent := by
  have hNoObject : ∀ x, Holds w.handles x → x.naked ≠ data := by
    rintro x hx rfl
    rw [(hc.objects x.naked hData).mpr ⟨x, hx, rfl⟩] at hObject
    cases hObject
  have hNoHolder : holders w.handles counter = 0 := by
    rw [hc.counted counter hCounter, countOf] at hRef
    by_contra hSome
    rw [if_neg hSome] at hRef
    cases hRef
  have hNoBlock : ∀ x, Holds w.handles x → x.counter ≠ counter := by
    intro x hx hEq
    have hPos := holders_pos_iff.mpr ⟨x, hx, hEq⟩
    omega
  have hNew : ∀ x, Holds (w.handles.push (some ⟨data, counter⟩)) x →
      x = ⟨data, counter⟩ ∨ Holds w.handles x := by
    intro x hx
    rcases (holds_push _).mp hx with hEq | hOld
    · exact Or.inl (Option.some.inj hEq).symm
    · exact Or.inr hOld
  constructor
  case null =>
    intro x hx
    rcases hNew x hx with rfl | hOld
    · simp [hData, hCounter]
    · exact hc.null x hOld
  case pairs =>
    intro x y hx hy
    rcases hNew x hx with rfl | hOld
    · rcases hNew y hy with rfl | hOld'
      · simp
      · simp [(hNoObject y hOld').symm, (hNoBlock y hOld').symm]
    · rcases hNew y hy with rfl | hOld'
      · simp [hNoObject x hOld, hNoBlock x hOld]
      · exact hc.pairs x y hOld hOld'
  case counted =>
    intro c hc0
    simp only [pushHandle, holders_push, holdsCounter]
    by_cases hEq : c = counter
    · subst hEq
      simp [hNoHolder, countOf]
    · have hOther : (counter == c) = false := beq_false_of_ne (Ne.symm hEq)
      rw [Function.update_of_ne hEq, hOther, Bool.toNat_false, Nat.add_zero]
      exact hc.counted c hc0
  case objects =>
    intro naked hNaked
    by_cases hEq : naked = data
    · subst hEq
      simp only [pushHandle, Function.update_self, true_iff]
      exact ⟨⟨naked, counter⟩, (holds_push _).mpr (Or.inl rfl), rfl⟩
    · simp only [pushHandle, Function.update_of_ne hEq, hc.objects naked hNaked]
      constructor
      · rintro ⟨x, hx, rfl⟩
        exact ⟨x, (holds_push _).mpr (Or.inr hx), rfl⟩
      · rintro ⟨x, hx, rfl⟩
        rcases hNew x hx with rfl | hOld
        · exact absurd rfl hEq
        · exact ⟨x, hOld, rfl⟩
  case defined => exact hc.defined

end Consistent

theorem alive_iff :
    w.alive i = true ↔ i < w.handles.size ∧ w.handles.get i = some (w.handle i) := by
  rw [alive, Bool.and_eq_true, decide_eq_true_eq, handle]
  cases w.handles.get i with
  | none => simp
  | some h => simp

theorem holds_handle (hAlive : w.alive i) : Holds w.handles (w.handle i) :=
  ⟨i, (alive_iff.mp hAlive).1, (alive_iff.mp hAlive).2⟩

theorem addCount_eq {count : Int32} (hRef : w.refs counter = some count) (n : Int32) :
    w.addCount counter n =
      { w with refs := Function.update w.refs counter (some (count + n)) } := by
  simp only [addCount, hRef]

/-- The count is one if the number of handles looks like one. -/
theorem ofNat_eq_one {n : Nat} : Int32.ofNat n = 1 ↔ n % 2 ^ 32 = 1 := by
  rw [← Int32.toBitVec_inj]
  simp [Int32.toBitVec_ofNat, ← BitVec.toNat_inj]

theorem ofNat_pred (n : Nat) : Int32.ofNat (n + 1) + -1 = Int32.ofNat n := by
  have hOne : Int32.ofNat 1 = 1 := rfl
  rw [Int32.ofNat_add, hOne, Int32.add_assoc, Int32.add_right_neg, Int32.add_zero]

section Slot

variable (hAlive : w.alive i)
include hAlive

/-- A handle that lets go. -/
theorem holders_vacate (hCounter : counter ≠ 0) :
    holders (w.handles.set i (some {})) counter + ((w.handle i).counter == counter).toNat =
      holders w.handles counter := by
  obtain ⟨hi, hGet⟩ := alive_iff.mp hAlive
  have hSet := holders_set (some {}) hi counter
  rwa [hGet, holdsCounter_empty hCounter, Bool.toNat_false, Nat.add_zero, holdsCounter] at hSet

theorem holds_vacate_sub (x : SharedPtr) (hx : Holds (w.handles.set i (some {})) x) :
    Holds w.handles x ∨ x = {} := by
  rcases (holds_set _ (alive_iff.mp hAlive).1).mp hx with hEq | ⟨k, hk, _, hGet⟩
  · exact Or.inr (Option.some.inj hEq).symm
  · exact Or.inl ⟨k, hk, hGet⟩

theorem holds_vacate_sup (x : SharedPtr) (hOther : x ≠ w.handle i) (hx : Holds w.handles x) :
    Holds (w.handles.set i (some {})) x := by
  obtain ⟨hi, hGet⟩ := alive_iff.mp hAlive
  obtain ⟨k, hk, hSlot⟩ := hx
  refine (holds_set _ hi).mpr (Or.inr ⟨k, hk, ?_, hSlot⟩)
  rintro rfl
  exact hOther (Option.some.inj (hSlot.symm.trans hGet))

end Slot

namespace Consistent

variable (hc : w.Consistent)
include hc

theorem refs_eq (hHolds : Holds w.handles h) (hSome : h.naked ≠ 0) :
    w.refs h.counter = some (Int32.ofNat (holders w.handles h.counter)) := by
  have hPos := holders_pos_iff.mpr ⟨h, hHolds, rfl⟩
  rw [hc.counted h.counter (hc.counter_ne hHolds hSome), countOf, if_neg (by omega)]

/-- A handle that is not the only one of its control block has a twin. -/
theorem exists_other (hAlive : w.alive i) (hSome : (w.handle i).naked ≠ 0)
    (hShared : 2 ≤ holders w.handles (w.handle i).counter) :
    ∃ k < w.handles.size, k ≠ i ∧ w.handles.get k = some (w.handle i) := by
  have hHolds := holds_handle hAlive
  have hCounter := hc.counter_ne hHolds hSome
  have hLess := holders_vacate hAlive hCounter
  rw [beq_self_eq_true, Bool.toNat_true] at hLess
  have hPos : 0 < holders (w.handles.set i (some {})) (w.handle i).counter := by omega
  obtain ⟨y, hy, hBlock⟩ := holders_pos_iff.mp hPos
  rcases (holds_set _ (alive_iff.mp hAlive).1).mp hy with hEq | ⟨k, hk, hNe, hGet⟩
  · obtain rfl := Option.some.inj hEq
    exact absurd hBlock.symm hCounter
  · have hObject := (hc.pairs y (w.handle i) ⟨k, hk, hGet⟩ hHolds).mpr hBlock
    have hSame : y = w.handle i := by
      cases y
      cases hHandle : w.handle i
      simp_all
    exact ⟨k, hk, hNe, hSame ▸ hGet⟩

/-- A handle that is not the last one lets go, so the count goes down. -/
theorem unshare (hAlive : w.alive i) (hSome : (w.handle i).naked ≠ 0)
    (hShared : 2 ≤ holders w.handles (w.handle i).counter) :
    ((w.addCount (w.handle i).counter (-1)).setHandle i {}).Consistent := by
  have hHolds := holds_handle hAlive
  have hCounter := hc.counter_ne hHolds hSome
  have hLess := holders_vacate hAlive hCounter
  rw [beq_self_eq_true, Bool.toNat_true] at hLess
  rw [addCount_eq (hc.refs_eq hHolds hSome)]
  apply hc.recount (holds_vacate_sub hAlive)
  · -- Another handle holds the same, so nothing disappears from what is held.
    intro x _ hx
    by_cases hSelf : x = w.handle i
    · obtain ⟨k, hk, hNe, hGet⟩ := hc.exists_other hAlive hSome hShared
      exact (holds_set _ (alive_iff.mp hAlive).1).mpr (Or.inr ⟨k, hk, hNe, hSelf ▸ hGet⟩)
    · exact holds_vacate_sup hAlive x hSelf hx
  · obtain ⟨n, hn⟩ : ∃ n, holders w.handles (w.handle i).counter = n + 1 := ⟨_, hLess.symm⟩
    have hLeft : holders (w.handles.set i (some {})) (w.handle i).counter = n := by omega
    rw [hLeft, hn, countOf, if_neg (by omega), ofNat_pred]
  · intro c hc0 hOther
    have hSame := holders_vacate hAlive hc0
    rwa [beq_false_of_ne (Ne.symm hOther), Bool.toNat_false, Nat.add_zero] at hSame

/-- One more handle of an object that is held, so the count goes up. -/
theorem acquire (hHolds : Holds w.handles h) (hSome : h.naked ≠ 0)
    (hSub : ∀ x, Holds v' x → Holds w.handles x ∨ x = {})
    (hSup : ∀ x, x.naked ≠ 0 → Holds w.handles x → Holds v' x)
    (hMore : ∀ c ≠ 0, holders v' c = holders w.handles c + (h.counter == c).toNat) :
    (({ w with handles := v' } : World).addCount h.counter 1).Consistent := by
  have hCounter := hc.counter_ne hHolds hSome
  have hRef : ({ w with handles := v' } : World).refs h.counter =
      some (Int32.ofNat (holders w.handles h.counter)) := hc.refs_eq hHolds hSome
  rw [addCount_eq hRef]
  refine hc.recount hSub hSup ?_ ?_
  · rw [hMore _ hCounter, beq_self_eq_true, Bool.toNat_true, countOf, if_neg (by omega),
      Int32.ofNat_add]
    rfl
  · intro c hc0 hOther
    rw [hMore c hc0, beq_false_of_ne (Ne.symm hOther), Bool.toNat_false, Nat.add_zero]

/-- `delete_me` leaves an empty handle behind. -/
theorem deleteMe (hAlive : w.alive i)
    (hLast : (w.handle i).naked ≠ 0 → holders w.handles (w.handle i).counter % 2 ^ 32 = 1 →
      holders w.handles (w.handle i).counter = 1) :
    (w.deleteMe i).Consistent ∧ (w.deleteMe i).handles = w.handles.set i (some {}) := by
  have hHolds := holds_handle hAlive
  by_cases hSome : (w.handle i).naked ≠ 0
  · have hRef := hc.refs_eq hHolds hSome
    have hCounter := hc.counter_ne hHolds hSome
    have hPos := holders_pos_iff.mpr ⟨_, hHolds, rfl⟩
    simp only [World.deleteMe, if_pos hSome, hRef, ofNat_eq_one]
    split_ifs with hOne
    · have hLess := holders_vacate hAlive hCounter
      rw [beq_self_eq_true, Bool.toNat_true, hLast hSome hOne] at hLess
      have hObject := (hc.objects _ hSome).mpr ⟨_, hHolds, rfl⟩
      refine ⟨?_, rfl⟩
      have hDeleted := hc.delete (holds_vacate_sub hAlive)
        (fun x _ hOther hx => holds_vacate_sup hAlive x hOther hx) hHolds (by omega) (by
          intro c hc0 hOther
          have hSame := holders_vacate hAlive hc0
          rwa [beq_false_of_ne (Ne.symm hOther), Bool.toNat_false, Nat.add_zero] at hSame)
      simpa [setHandle, deleteObject, deleteRef, hObject, hRef] using hDeleted
    · have hNot : holders w.handles (w.handle i).counter ≠ 1 := by
        intro hEq
        rw [hEq] at hOne
        exact hOne rfl
      refine ⟨hc.unshare hAlive hSome (by omega), ?_⟩
      rw [addCount_eq hRef]
      rfl
  · have hEmpty := hc.eq_empty hHolds (not_not.mp hSome)
    simp only [World.deleteMe, if_neg hSome]
    refine ⟨hc, (w.handles.set_eq_self ?_).symm⟩
    rw [(alive_iff.mp hAlive).2, hEmpty]

end Consistent
end World
end CppPerf.Ownership.SharedPtr
