import CppPerf.Arrays.PartialSum
import CppPerf.Semantics.GridTable
import CppPerf.Semantics.OrderedMap
import Mathlib.Algebra.BigOperators.Group.Multiset.Basic
import Mathlib.Algebra.Order.BigOperators.Group.Multiset
import Mathlib.Algebra.Order.Group.Abs
import Mathlib.Order.Bounds.Basic

/-! `tallestBillboard` and `tallestBillboard_bottomup` of `knapsack.cpp`. A position outside of a
vector is a failure. -/
namespace CppPerf.Knapsack

open Text Arrays GridTable Ordered

def INT32_MIN : Int := -2147483648

/-- The entry for a difference of heights. -/
def at_delta (memo : Table Int) (max_h : Int) (idx : Nat) (delta : Int) : Option Int :=
  if 0 ≤ delta ∧ delta ≤ max_h then some (memo idx delta.toNat) else none

/-- The recursion of `tallestBillboard` over the rods from `idx` on. -/
def tallestBillboard_from (max_h : Int) : (rods : List Int) → (idx : Nat) → (b1 b2 : Int) →
    (memo : Table Int) → Option (Int × Table Int)
  | [], _, b1, b2, memo =>
      if b1 > max_h ∨ b2 > max_h then some (-1, memo)
      else some (if b1 = b2 then b1 else -1, memo)
  | r :: rods, idx, b1, b2, memo =>
      if b1 > max_h ∨ b2 > max_h then some (-1, memo)
      else do
        let delta := |int (b1 - b2)|
        let known ← at_delta memo max_h idx delta
        if known < -1 then
          let (first, memo) ← tallestBillboard_from max_h rods (idx + 1) (int (b1 + r)) b2 memo
          let (second, memo) ← tallestBillboard_from max_h rods (idx + 1) b1 (int (b2 + r)) memo
          let (neither, memo) ← tallestBillboard_from max_h rods (idx + 1) b1 b2 memo
          let max_val := max first (max second neither)
          return (max_val, memo.set idx delta.toNat (max (-1) (int (max_val - min b1 b2))))
        else return (if 0 ≤ known then int (known + min b1 b2) else -1, memo)

def tallestBillboard (rods : List Int) : Option Int := do
  let total := accumulate rods
  if total.tdiv 2 + 1 < 0 then none
  let (h, _) ← tallestBillboard_from (total.tdiv 2) rods 0 0 0 fun _ _ => INT32_MIN
  return h

/-- Reading an entry that does not exist makes it 0. -/
def raise (dp : OrderedMap Int Int) (delta h : Int) : OrderedMap Int Int :=
  dp.set delta (max ((dp.lookup delta).getD 0) h)

/-- The loop over the old entries. -/
def add_rod (r : Int) (dp : OrderedMap Int Int) (entry : Int × Int) : OrderedMap Int Int :=
  let delta := entry.1
  let dp := raise dp (int (delta + r)) entry.2
  if delta = 0 then dp
  else
    let addition := min delta r
    raise dp |int (delta - r)| (int (addition + entry.2))

def tallestBillboard_bottomup (rods : List Int) : Int :=
  let dp := rods.foldl (fun dp r => dp.entries.foldl (add_rod r) dp) (OrderedMap.empty.set 0 0)
  (dp.lookup 0).getD 0

section Sides

variable {m : Multiset Int} {a b r : Int}

/-- Two of the rods' disjoint sub-collections have these heights. -/
def Sides (m : Multiset Int) (a b : Int) : Prop :=
  ∃ left right rest, m = left + right + rest ∧ left.sum = a ∧ right.sum = b

theorem sides_zero_iff : Sides 0 a b ↔ a = 0 ∧ b = 0 := by
  constructor
  · rintro ⟨left, right, rest, hAll, rfl, rfl⟩
    have hCard := congrArg Multiset.card hAll
    rw [Multiset.card_zero, Multiset.card_add, Multiset.card_add] at hCard
    rw [Multiset.card_eq_zero.mp (show left.card = 0 by omega),
      Multiset.card_eq_zero.mp (show right.card = 0 by omega)]
    exact ⟨rfl, rfl⟩
  · rintro ⟨rfl, rfl⟩
    exact ⟨0, 0, 0, rfl, rfl, rfl⟩

theorem Sides.symm (h : Sides m a b) : Sides m b a := by
  obtain ⟨left, right, rest, rfl, hLeft, hRight⟩ := h
  exact ⟨right, left, rest, by rw [Multiset.add_comm right], hRight, hLeft⟩

/-- A rod is welded to one of the two, or left out. -/
theorem sides_cons_iff : Sides (r ::ₘ m) a b ↔
    Sides m (a - r) b ∨ Sides m a (b - r) ∨ Sides m a b := by
  constructor
  · rintro ⟨left, right, rest, hAll, rfl, rfl⟩
    have hMem : r ∈ left + right + rest := hAll ▸ Multiset.mem_cons_self r m
    rcases Multiset.mem_add.mp hMem with hUsed | hRest
    · rcases Multiset.mem_add.mp hUsed with hLeft | hRight
      · obtain ⟨left, rfl⟩ := Multiset.exists_cons_of_mem hLeft
        rw [Multiset.cons_add, Multiset.cons_add, Multiset.cons_inj_right] at hAll
        refine Or.inl ⟨left, right, rest, hAll, ?_, rfl⟩
        rw [Multiset.sum_cons, add_sub_cancel_left]
      · obtain ⟨right, rfl⟩ := Multiset.exists_cons_of_mem hRight
        rw [Multiset.add_cons, Multiset.cons_add, Multiset.cons_inj_right] at hAll
        refine Or.inr (Or.inl ⟨left, right, rest, hAll, rfl, ?_⟩)
        rw [Multiset.sum_cons, add_sub_cancel_left]
    · obtain ⟨rest, rfl⟩ := Multiset.exists_cons_of_mem hRest
      rw [Multiset.add_cons, Multiset.cons_inj_right] at hAll
      exact Or.inr (Or.inr ⟨left, right, rest, hAll, rfl, rfl⟩)
  · rintro (⟨left, right, rest, rfl, hLeft, rfl⟩ | ⟨left, right, rest, rfl, rfl, hRight⟩ |
      ⟨left, right, rest, rfl, rfl, rfl⟩)
    · refine ⟨r ::ₘ left, right, rest, by simp, ?_, rfl⟩
      rw [Multiset.sum_cons, hLeft, add_sub_cancel]
    · refine ⟨left, r ::ₘ right, rest, by simp, rfl, ?_⟩
      rw [Multiset.sum_cons, hRight, add_sub_cancel]
    · exact ⟨left, right, r ::ₘ rest, by simp, rfl, rfl⟩

theorem Sides.bounds (hPos : ∀ x ∈ m, 0 < x) (h : Sides m a b) :
    0 ≤ a ∧ 0 ≤ b ∧ a + b ≤ m.sum := by
  obtain ⟨left, right, rest, rfl, rfl, rfl⟩ := h
  have hNonneg : ∀ t ≤ left + right + rest, 0 ≤ t.sum := fun t ht =>
    Multiset.sum_nonneg fun x hx => (hPos x (Multiset.mem_of_le ht hx)).le
  have hLeft := hNonneg left (by rw [Multiset.add_assoc]; exact Multiset.le_add_right _ _)
  have hRight := hNonneg right
    ((Multiset.le_add_left _ _).trans (Multiset.le_add_right (left + right) rest))
  have hRest := hNonneg rest (Multiset.le_add_left _ _)
  rw [Multiset.sum_add, Multiset.sum_add]
  omega

end Sides

section Best

variable {S T : Set Int} {v w k : Int}

/-- The greatest element, or -1. -/
def Best (S : Set Int) (v : Int) : Prop := (v = -1 ∧ S = ∅) ∨ IsGreatest S v

theorem best_union (hS : Best S v) (hT : Best T w) (hNonneg : ∀ x ∈ S ∪ T, 0 ≤ x) :
    Best (S ∪ T) (max v w) := by
  rcases hS with ⟨rfl, rfl⟩ | hv
  · rcases hT with ⟨rfl, rfl⟩ | hw
    · exact Or.inl ⟨rfl, Set.empty_union ∅⟩
    · have hLe := hNonneg w (Or.inr hw.1)
      rw [Set.empty_union, max_eq_right (by omega)]
      exact Or.inr hw
  · rcases hT with ⟨rfl, rfl⟩ | hw
    · have hLe := hNonneg v (Or.inl hv.1)
      rw [Set.union_empty, max_eq_left (by omega)]
      exact Or.inr hv
    · exact Or.inr (hv.union hw)

/-- What is stored is relative to the lower of the two heights. -/
theorem best_lower (hk : 0 ≤ k) (hLow : ∀ h ∈ S, k ≤ h) (hS : Best S v) :
    Best {h | h + k ∈ S} (max (-1) (v - k)) := by
  rcases hS with ⟨rfl, rfl⟩ | hv
  · exact Or.inl ⟨max_eq_left (by omega), rfl⟩
  · have hLe := hLow v hv.1
    rw [max_eq_right (by omega)]
    refine Or.inr ⟨?_, fun h hh => ?_⟩
    · show v - k + k ∈ S
      rw [Int.sub_add_cancel]
      exact hv.1
    · have hGreatest := hv.2 hh
      omega

theorem best_raise (hNonneg : ∀ h ∈ {h | h + k ∈ S}, 0 ≤ h) (hBest : Best {h | h + k ∈ S} v) :
    Best S (if 0 ≤ v then v + k else -1) := by
  rcases hBest with ⟨rfl, hNone⟩ | hv
  · rw [if_neg (by decide)]
    refine Or.inl ⟨rfl, Set.eq_empty_of_forall_notMem fun h hh => ?_⟩
    have hShift : h - k ∈ {h | h + k ∈ S} := by
      show h - k + k ∈ S
      rwa [Int.sub_add_cancel]
    rw [hNone] at hShift
    exact hShift
  · rw [if_pos (hNonneg v hv.1)]
    refine Or.inr ⟨hv.1, fun h hh => ?_⟩
    have hGreatest := hv.2 (show h - k + k ∈ S by rwa [Int.sub_add_cancel])
    omega

theorem best_mem_range {total : Int} (hTotal : 0 ≤ total) (hRange : ∀ h ∈ S, 0 ≤ h ∧ h ≤ total)
    (hS : Best S v) : -1 ≤ v ∧ v ≤ total := by
  rcases hS with ⟨rfl, -⟩ | hv
  · omega
  · have hBounds := hRange v hv.1
    omega

end Best

section TopDown

variable {rods rest : List Int} {memo : Table Int} {b1 b2 r total h : Int} {idx : Nat}

/-- The heights that both can reach from where they are. -/
def Heights (rest : List Int) (b1 b2 : Int) : Set Int :=
  {h | Sides (rest : Multiset Int) (h - b1) (h - b2)}

theorem heights_nil (b1 b2 : Int) : Heights [] b1 b2 = {h | h = b1 ∧ h = b2} := by
  ext h
  refine sides_zero_iff.trans (and_congr ?_ ?_)
  · exact sub_eq_zero
  · exact sub_eq_zero

theorem heights_cons (r : Int) (rest : List Int) (b1 b2 : Int) : Heights (r :: rest) b1 b2 =
    Heights rest (b1 + r) b2 ∪ (Heights rest b1 (b2 + r) ∪ Heights rest b1 b2) := by
  ext h
  show Sides (r ::ₘ (rest : Multiset Int)) (h - b1) (h - b2) ↔
    Sides _ _ _ ∨ Sides _ _ _ ∨ Sides _ _ _
  rw [sides_cons_iff, sub_sub, sub_sub]

/-- Only the difference of the two matters. -/
theorem heights_lower (rest : List Int) (b1 b2 : Int) :
    {h | h + min b1 b2 ∈ Heights rest b1 b2} = Heights rest |b1 - b2| 0 := by
  ext h
  show Sides _ (h + min b1 b2 - b1) (h + min b1 b2 - b2) ↔ Sides _ (h - |b1 - b2|) (h - 0)
  rcases le_total b1 b2 with hLe | hLe
  · have hDelta : h + b1 - b2 = h - (b2 - b1) := by omega
    rw [min_eq_left hLe, abs_sub_comm, abs_of_nonneg (by omega), add_sub_cancel_right, sub_zero,
      hDelta]
    exact ⟨Sides.symm, Sides.symm⟩
  · have hDelta : h + b2 - b1 = h - (b1 - b2) := by omega
    rw [min_eq_right hLe, abs_of_nonneg (by omega), add_sub_cancel_right, sub_zero, hDelta]

theorem heights_bounds (hPos : ∀ x ∈ rest, 0 < x) (hh : h ∈ Heights rest b1 b2) :
    b1 ≤ h ∧ b2 ≤ h ∧ h + h ≤ b1 + b2 + rest.sum := by
  have hBounds := Sides.bounds (m := rest) hPos hh
  rw [Multiset.sum_coe] at hBounds
  omega

/-- No entry is wrong, whatever the heights at which it was computed. -/
def Remembers (rods : List Int) (memo : Table Int) : Prop :=
  ∀ (idx δ : Nat), memo idx δ = INT32_MIN ∨ Best (Heights (rods.drop idx) δ 0) (memo idx δ)

theorem remembers_set (hMemo : Remembers rods memo) {δ : Nat} {v : Int}
    (hBest : Best (Heights (rods.drop idx) δ 0) v) : Remembers rods (memo.set idx δ v) := by
  intro i d
  by_cases hSame : i = idx ∧ d = δ
  · obtain ⟨rfl, rfl⟩ := hSame
    rw [Table.set_self]
    exact Or.inr hBest
  · rw [Table.set_of_ne memo (by omega)]
    exact hMemo i d

/-- More than a half of everything is out of reach for the other one. -/
theorem heights_pruned (hPos : ∀ x ∈ rest, 0 < x) (hSum : b1 + b2 + rest.sum ≤ total)
    (hHigh : b1 > total / 2 ∨ b2 > total / 2) : Heights rest b1 b2 = ∅ := by
  refine Set.eq_empty_of_forall_notMem fun h hh => ?_
  have hBounds := heights_bounds hPos hh
  omega

theorem heights_range (hPos : ∀ x ∈ rest, 0 < x) (hb1 : 0 ≤ b1)
    (hSum : b1 + b2 + rest.sum ≤ total) :
    ∀ h ∈ Heights rest b1 b2, (0 ≤ h ∧ h ≤ total) ∧ min b1 b2 ≤ h := by
  intro h hh
  have hBounds := heights_bounds hPos hh
  omega

theorem best_cons {first second neither : Int} (hFirst : Best (Heights rest (b1 + r) b2) first)
    (hSecond : Best (Heights rest b1 (b2 + r)) second)
    (hNeither : Best (Heights rest b1 b2) neither)
    (hNonneg : ∀ h ∈ Heights (r :: rest) b1 b2, 0 ≤ h) :
    Best (Heights (r :: rest) b1 b2) (max first (max second neither)) := by
  rw [heights_cons] at hNonneg ⊢
  exact best_union hFirst (best_union hSecond hNeither fun h hh => hNonneg h (Or.inr hh)) hNonneg

/-- The result for the rods of `rest` may be stored for all heights with this difference. -/
theorem remembers_result {δ : Nat} {v : Int} (hTotal : total < 2 ^ 31)
    (hDrop : rods.drop idx = rest) (hPos : ∀ x ∈ rest, 0 < x) (hb1 : 0 ≤ b1) (hb2 : 0 ≤ b2)
    (hSum : b1 + b2 + rest.sum ≤ total) (hδ : |b1 - b2| = (δ : Int)) (hMemo : Remembers rods memo)
    (hBest : Best (Heights rest b1 b2) v) :
    Remembers rods (memo.set idx δ (max (-1) (int (v - min b1 b2)))) := by
  have hRange := heights_range hPos hb1 hSum
  have hRestSum : 0 ≤ rest.sum := List.sum_nonneg fun x hx => (hPos x hx).le
  have hBounds := best_mem_range (by omega) (fun h hh => (hRange h hh).1) hBest
  have hMin : 0 ≤ min b1 b2 := le_min hb1 hb2
  refine remembers_set hMemo ?_
  rw [hDrop, ← hδ, ← heights_lower, int_eq_self (by omega) (by omega)]
  exact best_lower hMin (fun h hh => (hRange h hh).2) hBest

/-- An entry that is known gives the result for these heights, too. -/
theorem best_of_remembers {δ : Nat} (hTotal : total < 2 ^ 31) (hDrop : rods.drop idx = rest)
    (hPos : ∀ x ∈ rest, 0 < x) (hb1 : 0 ≤ b1) (hb2 : 0 ≤ b2) (hSum : b1 + b2 + rest.sum ≤ total)
    (hδ : |b1 - b2| = (δ : Int)) (hMemo : Remembers rods memo) (hOld : ¬memo idx δ < -1) :
    Best (Heights rest b1 b2) (if 0 ≤ memo idx δ then int (memo idx δ + min b1 b2) else -1) := by
  have hRange := heights_range hPos hb1 hSum
  have hRestSum : 0 ≤ rest.sum := List.sum_nonneg fun x hx => (hPos x hx).le
  rcases hMemo idx δ with hNew | hKnown
  · rw [hNew] at hOld
    exact absurd (by decide) hOld
  rw [hDrop, ← hδ, ← heights_lower] at hKnown
  have hBest := best_raise (fun h hh => by have hLe := (hRange _ hh).2; omega) hKnown
  have hBounds := best_mem_range (by omega) (fun h hh => (hRange h hh).1) hBest
  split_ifs at hBest hBounds ⊢ with hFound
  · rwa [int_eq_self (by omega) (by omega)]
  · exact hBest

theorem tallestBillboard_from_nil_spec (hSum : b1 + b2 ≤ total) (memo : Table Int) (idx : Nat) :
    ∃ v, tallestBillboard_from (total / 2) [] idx b1 b2 memo = some (v, memo) ∧
      Best (Heights [] b1 b2) v := by
  have hRods : b1 + b2 + ([] : List Int).sum ≤ total := by rwa [List.sum_nil, Int.add_zero]
  rw [tallestBillboard_from]
  split_ifs with hHigh hSame
  · exact ⟨-1, rfl, Or.inl ⟨rfl, heights_pruned (by simp) hRods hHigh⟩⟩
  · subst hSame
    refine ⟨b1, rfl, Or.inr ?_⟩
    rw [heights_nil]
    exact ⟨⟨rfl, rfl⟩, fun h hh => hh.1.le⟩
  · refine ⟨-1, rfl, Or.inl ⟨rfl, ?_⟩⟩
    rw [heights_nil]
    exact Set.eq_empty_of_forall_notMem fun h hh => hSame (hh.1.symm.trans hh.2)

theorem tallestBillboard_from_spec (hTotal : total < 2 ^ 31) (hDrop : rods.drop idx = rest)
    (hPos : ∀ x ∈ rest, 0 < x) (hb1 : 0 ≤ b1) (hb2 : 0 ≤ b2) (hSum : b1 + b2 + rest.sum ≤ total)
    (hMemo : Remembers rods memo) :
    ∃ v memo', tallestBillboard_from (total / 2) rest idx b1 b2 memo = some (v, memo') ∧
      Best (Heights rest b1 b2) v ∧ Remembers rods memo' := by
  induction rest generalizing idx b1 b2 memo with
  | nil =>
      obtain ⟨v, hRun, hBest⟩ := tallestBillboard_from_nil_spec (by simpa using hSum) memo idx
      exact ⟨v, memo, hRun, hBest, hMemo⟩
  | cons r rest ih =>
      have hRange := heights_range hPos hb1 hSum
      rw [tallestBillboard_from]
      split_ifs with hHigh
      · exact ⟨-1, memo, rfl, Or.inl ⟨rfl, heights_pruned hPos hSum hHigh⟩, hMemo⟩
      -- The index is in range because neither of the two is above a half.
      have hRest : ∀ x ∈ rest, 0 < x := fun x hx => hPos x (List.mem_cons_of_mem r hx)
      have hRestSum : 0 ≤ rest.sum := List.sum_nonneg fun x hx => (hRest x hx).le
      have hr := hPos r List.mem_cons_self
      have hAll : b1 + b2 + (r + rest.sum) ≤ total := by rwa [List.sum_cons] at hSum
      have hDelta : int (b1 - b2) = b1 - b2 := int_eq_self (by omega) (by omega)
      have hIndex : 0 ≤ |b1 - b2| ∧ |b1 - b2| ≤ total / 2 :=
        ⟨abs_nonneg _, abs_sub_le_iff.mpr ⟨by omega, by omega⟩⟩
      obtain ⟨δ, hδ⟩ := Int.eq_ofNat_of_zero_le hIndex.1
      rw [hδ] at hIndex
      rw [hDelta, hδ]
      simp only [at_delta, if_pos hIndex, Int.toNat_natCast, Option.bind_eq_bind, Option.bind_some]
      by_cases hUnknown : memo idx δ < -1
      · have hNext : rods.drop (idx + 1) = rest := by
          rw [← List.drop_drop, hDrop]
          rfl
        obtain ⟨first, memo₁, hRun₁, hBest₁, hMemo₁⟩ :=
          ih hNext hRest (show 0 ≤ b1 + r by omega) hb2 (by omega) hMemo
        obtain ⟨second, memo₂, hRun₂, hBest₂, hMemo₂⟩ :=
          ih hNext hRest hb1 (show 0 ≤ b2 + r by omega) (by omega) hMemo₁
        obtain ⟨neither, memo₃, hRun₃, hBest₃, hMemo₃⟩ := ih hNext hRest hb1 hb2 (by omega) hMemo₂
        rw [if_pos hUnknown, int_eq_self (x := b1 + r) (by omega) (by omega),
          int_eq_self (x := b2 + r) (by omega) (by omega), hRun₁, Option.bind_some, hRun₂,
          Option.bind_some, hRun₃, Option.bind_some]
        have hBest := best_cons hBest₁ hBest₂ hBest₃ fun h hh => (hRange h hh).1.1
        exact ⟨_, _, rfl, hBest,
          remembers_result hTotal hDrop hPos hb1 hb2 hSum hδ hMemo₃ hBest⟩
      · rw [if_neg hUnknown]
        exact ⟨_, memo, rfl,
          best_of_remembers hTotal hDrop hPos hb1 hb2 hSum hδ hMemo hUnknown, hMemo⟩

end TopDown

section BottomUp

variable {m : Multiset Int} {dp old : OrderedMap Int Int} {r k v h : Int} {entry : Int × Int}

/-- Every entry is the lower of two heights, under their difference. -/
def Sound (m : Multiset Int) (dp : OrderedMap Int Int) : Prop :=
  ∀ e ∈ dp.entries, 0 ≤ e.1 ∧ Sides m (e.2 + e.1) e.2

/-- The entry for a difference is at least as high. -/
def Held (dp : OrderedMap Int Int) (k h : Int) : Prop := ∃ w, dp.lookup k = some w ∧ h ≤ w

def Covers (m : Multiset Int) (dp : OrderedMap Int Int) : Prop :=
  ∀ a b, Sides m a b → b ≤ a → Held dp (a - b) b

theorem held_raise_self (dp : OrderedMap Int Int) (k h : Int) : Held (raise dp k h) k h :=
  ⟨_, dp.lookup_set_self k _, le_max_right _ _⟩

theorem held_raise (hHeld : Held dp k v) (delta h : Int) : Held (raise dp delta h) k v := by
  obtain ⟨w, hw, hLe⟩ := hHeld
  by_cases hKey : k = delta
  · subst hKey
    refine ⟨_, dp.lookup_set_self k _, hLe.trans ?_⟩
    rw [hw]
    exact le_max_left w h
  · exact ⟨w, (dp.lookup_set_of_ne _ hKey).trans hw, hLe⟩

theorem sound_raise (hPos : ∀ x ∈ m, 0 < x) (hSound : Sound m dp) (hk : 0 ≤ k)
    (hSides : Sides m (h + k) h) : Sound m (raise dp k h) := by
  intro e he
  rcases (dp.mem_set e).mp he with rfl | ⟨hOld, -⟩
  · refine ⟨hk, ?_⟩
    show Sides m (max ((dp.lookup k).getD 0) h + k) (max ((dp.lookup k).getD 0) h)
    rcases max_choice ((dp.lookup k).getD 0) h with hMax | hMax
    · rw [hMax]
      cases hLookup : dp.lookup k with
      | none =>
          -- The 0 of a new entry counts only where it is the height.
          have hNonneg := (hSides.bounds hPos).2.1
          rw [hLookup, Option.getD_none] at hMax
          have hZero : h = 0 := le_antisymm (hMax ▸ le_max_right 0 h) hNonneg
          rwa [hZero] at hSides
      | some w => exact (hSound _ (dp.lookup_eq_some_iff.mp hLookup)).2
    · rwa [hMax]
  · exact hSound e hOld

theorem covers_cons (hr : 0 < r) (hCovers : Covers m old)
    (hKept : ∀ k v, Held old k v → Held dp k v)
    (hAll : ∀ e ∈ old.entries, Held dp (e.1 + r) e.2 ∧ Held dp |e.1 - r| (min e.1 r + e.2)) :
    Covers (r ::ₘ m) dp := by
  have hUse : ∀ {k v}, Held old k v →
      Held dp (k + r) v ∧ Held dp |k - r| (min k r + v) := by
    rintro k v ⟨w, hw, hLe⟩
    obtain ⟨⟨t, ht, htLe⟩, ⟨s, hs, hsLe⟩⟩ := hAll (k, w) (old.lookup_eq_some_iff.mp hw)
    exact ⟨⟨t, ht, hLe.trans htLe⟩, ⟨s, hs, by simp only at hsLe; omega⟩⟩
  intro a b hSides hLe
  rcases sides_cons_iff.mp hSides with hLeft | hRight | hNeither
  · rcases le_total b (a - r) with hStill | hOther
    · have hHeld := (hUse (hCovers _ _ hLeft hStill)).1
      rwa [show a - r - b + r = a - b by omega] at hHeld
    · -- The rod makes the lower one the higher one.
      have hHeld := (hUse (hCovers _ _ hLeft.symm hOther)).2
      rwa [abs_sub_comm, abs_of_nonneg (by omega), min_eq_left (by omega),
        show r - (b - (a - r)) = a - b by omega, show b - (a - r) + (a - r) = b by omega] at hHeld
  · have hHeld := (hUse (hCovers _ _ hRight (by omega))).2
    rwa [abs_of_nonneg (by omega), min_eq_right (by omega),
      show a - (b - r) - r = a - b by omega, add_sub_cancel] at hHeld
  · exact hKept _ _ (hCovers a b hNeither hLe)

variable (hPos : ∀ x ∈ m, 0 < x) (hr : 0 < r) (hSum : r + m.sum < 2 ^ 31)

include hPos hr hSum

/-- What one entry of the old map adds to the new one. -/
theorem add_rod_spec (hSound : Sound (r ::ₘ m) dp) (hEntry : 0 ≤ entry.1)
    (hSides : Sides m (entry.2 + entry.1) entry.2) :
    Sound (r ::ₘ m) (add_rod r dp entry) ∧
      (∀ k v, Held dp k v → Held (add_rod r dp entry) k v) ∧
      Held (add_rod r dp entry) (entry.1 + r) entry.2 ∧
      Held (add_rod r dp entry) |entry.1 - r| (min entry.1 r + entry.2) := by
  obtain ⟨delta, h⟩ := entry
  have hBounds := hSides.bounds hPos
  simp only at hEntry hSides hBounds
  have hMore : ∀ x ∈ r ::ₘ m, 0 < x := Multiset.forall_mem_cons.mpr ⟨hr, hPos⟩
  have hTaller : Sides (r ::ₘ m) (h + (delta + r)) h := by
    refine sides_cons_iff.mpr (Or.inl ?_)
    rwa [show h + (delta + r) - r = h + delta by omega]
  have hShorter : Sides (r ::ₘ m) (min delta r + h + |delta - r|) (min delta r + h) := by
    rcases le_total r delta with hLe | hLe
    · rw [min_eq_right hLe, abs_of_nonneg (by omega)]
      refine sides_cons_iff.mpr (Or.inr (Or.inl ?_))
      rwa [show r + h + (delta - r) = h + delta by omega, add_sub_cancel_left]
    · rw [min_eq_left hLe, abs_sub_comm, abs_of_nonneg (by omega)]
      refine sides_cons_iff.mpr (Or.inl ?_)
      rw [show delta + h + (r - delta) - r = h by omega, Int.add_comm]
      exact hSides.symm
  have hHigher := sound_raise hMore hSound (by omega) hTaller
  simp only [add_rod]
  rw [int_eq_self (x := delta + r) (by omega) (by omega),
    int_eq_self (x := delta - r) (by omega) (by omega),
    int_eq_self (x := min delta r + h) (by omega) (by omega)]
  split_ifs with hEven
  · subst hEven
    refine ⟨hHigher, fun k v hHeld => held_raise hHeld _ _, held_raise_self dp _ h, ?_⟩
    rw [zero_sub, abs_neg, abs_of_pos hr, min_eq_left hr.le, Int.zero_add h, Int.zero_add r]
    exact held_raise_self dp r h
  · exact ⟨sound_raise hMore hHigher (abs_nonneg _) hShorter,
      fun k v hHeld => held_raise (held_raise hHeld _ _) _ _,
      held_raise (held_raise_self dp _ h) _ _, held_raise_self _ _ _⟩

theorem add_rods_spec (entries : List (Int × Int))
    (hEntries : ∀ e ∈ entries, 0 ≤ e.1 ∧ Sides m (e.2 + e.1) e.2) (hSound : Sound (r ::ₘ m) dp) :
    Sound (r ::ₘ m) (entries.foldl (add_rod r) dp) ∧
      (∀ k v, Held dp k v → Held (entries.foldl (add_rod r) dp) k v) ∧
      ∀ e ∈ entries, Held (entries.foldl (add_rod r) dp) (e.1 + r) e.2 ∧
        Held (entries.foldl (add_rod r) dp) |e.1 - r| (min e.1 r + e.2) := by
  induction entries generalizing dp with
  | nil => exact ⟨hSound, fun k v hHeld => hHeld, fun e he => absurd he List.not_mem_nil⟩
  | cons e entries ih =>
      rw [List.forall_mem_cons] at hEntries
      obtain ⟨hNext, hKept, hTaller, hShorter⟩ :=
        add_rod_spec hPos hr hSum hSound hEntries.1.1 hEntries.1.2
      obtain ⟨hLast, hRest, hAll⟩ := ih hEntries.2 hNext
      refine ⟨hLast, fun k v hHeld => hRest k v (hKept k v hHeld), ?_⟩
      exact List.forall_mem_cons.mpr ⟨⟨hRest _ _ hTaller, hRest _ _ hShorter⟩, hAll⟩

end BottomUp

/-- The map before the first rod. -/
theorem start_spec : Sound 0 (OrderedMap.empty.set 0 0) ∧ Covers 0 (OrderedMap.empty.set 0 0) := by
  constructor
  · intro e he
    rcases (OrderedMap.mem_set _ e).mp he with rfl | ⟨hOld, -⟩
    · exact ⟨le_rfl, sides_zero_iff.mpr ⟨rfl, rfl⟩⟩
    · exact absurd hOld List.not_mem_nil
  · intro a b hSides _
    obtain ⟨rfl, rfl⟩ := sides_zero_iff.mp hSides
    exact ⟨0, OrderedMap.lookup_set_self _ _ _, le_rfl⟩

theorem bottomup_run {m : Multiset Int} {dp : OrderedMap Int Int} (rods : List Int)
    (hRods : ∀ x ∈ rods, 0 < x) (hPos : ∀ x ∈ m, 0 < x) (hSum : rods.sum + m.sum < 2 ^ 31)
    (hSound : Sound m dp) (hCovers : Covers m dp) :
    let dp' := rods.foldl (fun dp r => dp.entries.foldl (add_rod r) dp) dp
    Sound (rods + m) dp' ∧ Covers (rods + m) dp' := by
  induction rods generalizing m dp with
  | nil =>
      rw [Multiset.coe_nil, Multiset.zero_add]
      exact ⟨hSound, hCovers⟩
  | cons r rods ih =>
      rw [List.forall_mem_cons] at hRods
      rw [List.sum_cons] at hSum
      have hRest : 0 ≤ rods.sum := List.sum_nonneg fun x hx => (hRods.2 x hx).le
      have hOld : Sound (r ::ₘ m) dp := fun e he =>
        ⟨(hSound e he).1, sides_cons_iff.mpr (Or.inr (Or.inr (hSound e he).2))⟩
      obtain ⟨hNext, hKept, hAll⟩ :=
        add_rods_spec hPos hRods.1 (by omega) dp.entries hSound hOld
      have hMore : ∀ x ∈ r ::ₘ m, 0 < x := Multiset.forall_mem_cons.mpr ⟨hRods.1, hPos⟩
      have hRun := ih hRods.2 hMore (by rw [Multiset.sum_cons]; omega) hNext
        (covers_cons hRods.1 hCovers hKept hAll)
      rwa [Multiset.add_cons, ← Multiset.cons_add, Multiset.cons_coe] at hRun

/-- Both give the largest height that two disjoint collections of rods have. -/
theorem tallestBillboard_spec (rods : List Int) (hPos : ∀ r ∈ rods, 0 < r)
    (hTotal : rods.sum < 2 ^ 31) :
    ∃ h, tallestBillboard rods = some h ∧ tallestBillboard_bottomup rods = h ∧
      IsGreatest {h | Sides (rods : Multiset Int) h h} h := by
  have hNonneg : 0 ≤ rods.sum := List.sum_nonneg fun r hr => (hPos r hr).le
  have hEmpty : Sides (rods : Multiset Int) 0 0 := ⟨0, 0, rods, by simp, rfl, rfl⟩
  have hNew : Remembers rods fun _ _ => INT32_MIN := fun _ _ => Or.inl rfl
  obtain ⟨h, memo, hRun, hBest, -⟩ := tallestBillboard_from_spec hTotal (List.drop_zero (l := rods))
    hPos (le_refl 0) (le_refl 0) (by omega) hNew
  have hGreatest : IsGreatest {h | Sides (rods : Multiset Int) h h} h := by
    have hHeights : Heights rods 0 0 = {h | Sides (rods : Multiset Int) h h} := by
      simp only [Heights, sub_zero]
    rw [hHeights] at hBest
    rcases hBest with ⟨-, hNone⟩ | hGreatest
    · have hIn : (0 : Int) ∈ {h | Sides (rods : Multiset Int) h h} := hEmpty
      rw [hNone] at hIn
      exact absurd hIn (Set.notMem_empty 0)
    · exact hGreatest
  refine ⟨h, ?_, ?_, hGreatest⟩
  · have hWeights : accumulate rods = rods.sum := by
      rw [accumulate_eq, int_eq_self (by omega) hTotal]
    rw [tallestBillboard, hWeights, Int.tdiv_eq_ediv_of_nonneg hNonneg, if_neg (by omega)]
    simp [hRun]
  · obtain ⟨hSound, hCovers⟩ := bottomup_run rods hPos (m := 0) (by simp) (by simpa using hTotal)
      start_spec.1 start_spec.2
    rw [Multiset.add_zero] at hSound hCovers
    obtain ⟨w, hw, hLe⟩ := hCovers h h hGreatest.1 le_rfl
    rw [sub_self] at hw
    have hFound := (hSound _ (OrderedMap.lookup_eq_some_iff _ |>.mp hw)).2
    rw [tallestBillboard_bottomup, hw, Option.getD_some]
    exact le_antisymm (hGreatest.2 (by simpa using hFound)) hLe

theorem tallestBillboard_spec_six :
    IsGreatest {h | Sides (([1, 2, 3, 6] : List Int) : Multiset Int) h h} 6 := by
  obtain ⟨h, hRun, -, hGreatest⟩ := tallestBillboard_spec [1, 2, 3, 6] (by decide) (by decide)
  have hResult : tallestBillboard [1, 2, 3, 6] = some 6 := by decide +kernel
  rw [hResult, Option.some.injEq] at hRun
  subst hRun
  exact hGreatest

/-- The sum of the rods is no `int`, and the vectors get no entries. -/
theorem not_tallestBillboard_spec : ¬∀ rods : List Int, (∀ r ∈ rods, 0 < r ∧ r < 2 ^ 31) →
    ∃ h, tallestBillboard rods = some h ∧ tallestBillboard_bottomup rods = h ∧
      IsGreatest {h | Sides (rods : Multiset Int) h h} h := by
  intro hAll
  obtain ⟨h, hRun, -⟩ := hAll [2147483647, 1] (by decide)
  have hNone : tallestBillboard [2147483647, 1] = none := by decide
  rw [hNone] at hRun
  cases hRun

end CppPerf.Knapsack
