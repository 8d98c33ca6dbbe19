import Mathlib.Data.List.Basic
import Mathlib.Order.Lattice
import Mathlib.Tactic.Common

/-! Binary search in a list that does not decrease. -/
namespace SortedRange

variable {α : Type*} [LinearOrder α]

/-- The first of `len` positions from `first` on with an entry that is not below the value, or
the position behind them. -/
def lowerBound (l : List α) (value : α) (first len : Nat) : Nat :=
  if len = 0 then first
  else if ∃ x ∈ l[first + len / 2]?, x < value then
    lowerBound l value (first + len / 2 + 1) (len - len / 2 - 1)
  else lowerBound l value first (len / 2)
  termination_by len

/-- The first position with an entry above the value. -/
def upperBound (l : List α) (value : α) (first len : Nat) : Nat :=
  if len = 0 then first
  else if ∃ x ∈ l[first + len / 2]?, value < x then upperBound l value first (len / 2)
  else upperBound l value (first + len / 2 + 1) (len - len / 2 - 1)
  termination_by len

def binarySearch (l : List α) (value : α) : Bool :=
  match l[lowerBound l value 0 l.length]? with
  | none => false
  | some x => !(value < x)

variable {l : List α} {value : α} {first len : Nat}

/-- What is in front of the bound is below the value, and nothing behind it is. -/
structure Splits (l : List α) (value : α) (first len : Nat) : Prop where
  bound : first + len ≤ l.length
  before : ∀ i x, i < first → l[i]? = some x → x < value
  behind : ∀ i x, first + len ≤ i → l[i]? = some x → value ≤ x

theorem le_of_index_le (hSorted : l.Pairwise (· ≤ ·)) {i j : Nat} {x y : α} (hLe : i ≤ j)
    (hx : l[i]? = some x) (hy : l[j]? = some y) : x ≤ y := by
  rcases Nat.lt_or_eq_of_le hLe with hLt | rfl
  · obtain ⟨hi, rfl⟩ := List.getElem?_eq_some_iff.mp hx
    obtain ⟨hj, rfl⟩ := List.getElem?_eq_some_iff.mp hy
    exact List.pairwise_iff_getElem.mp hSorted i j hi hj hLt
  · rw [hx] at hy
    cases hy
    exact le_rfl

/-- The part that is searched gets smaller, and what is left out is split by the value. -/
theorem splits_lowerBound (hSorted : l.Pairwise (· ≤ ·)) (h : Splits l value first len) :
    Splits l value (lowerBound l value first len) 0 := by
  induction len using Nat.strongRecOn generalizing first with
  | ind len ih =>
      rw [lowerBound]
      split_ifs with hNone hBelow
      · rwa [hNone] at h
      · obtain ⟨x, hx, hLt⟩ := hBelow
        apply ih _ (by omega)
        have hBound := h.bound
        refine ⟨by omega, fun i y hi hy => ?_, fun i y hi hy => h.behind i y (by omega) hy⟩
        exact (le_of_index_le hSorted (Nat.lt_succ_iff.mp hi) hy hx).trans_lt hLt
      · have hBound := h.bound
        have hMiddle : l[first + len / 2]? = some l[first + len / 2] :=
          List.getElem?_eq_getElem (by omega)
        have hGe : value ≤ l[first + len / 2] := le_of_not_gt fun hLt => hBelow ⟨_, hMiddle, hLt⟩
        apply ih _ (by omega)
        refine ⟨by omega, h.before, fun i y hi hy => ?_⟩
        exact hGe.trans (le_of_index_le hSorted hi hMiddle hy)

/-- The bound is the first position that can hold the value. -/
theorem binarySearch_iff (hSorted : l.Pairwise (· ≤ ·)) :
    binarySearch l value = true ↔ value ∈ l := by
  have hStart : Splits l value 0 l.length := by
    refine ⟨by omega, fun i x hi => absurd hi (by omega), fun i x hi hx => ?_⟩
    rw [List.getElem?_eq_none (by omega)] at hx
    cases hx
  have hSplits := splits_lowerBound hSorted hStart
  have hBehind : ∀ i, l[i]? = some value → lowerBound l value 0 l.length ≤ i := by
    intro i hi
    apply Nat.le_of_not_lt
    intro hLt
    exact absurd (hSplits.before i value hLt hi) (lt_irrefl value)
  rw [binarySearch, List.mem_iff_getElem?]
  cases hAt : l[lowerBound l value 0 l.length]? with
  | none =>
      refine iff_of_false (by simp) ?_
      rintro ⟨i, hi⟩
      rw [List.getElem?_eq_none ((List.getElem?_eq_none_iff.mp hAt).trans (hBehind i hi))] at hi
      cases hi
  | some x =>
      have hGe : value ≤ x := hSplits.behind _ x (by omega) hAt
      simp only [Bool.not_eq_true', decide_eq_false_iff_not, not_lt]
      constructor
      · intro hLe
        exact ⟨_, hAt.trans (congrArg some (le_antisymm hLe hGe))⟩
      · rintro ⟨i, hi⟩
        exact le_of_index_le hSorted (hBehind i hi) hAt hi

section Counts

/-- What is in front of the bound is not above the value, and all behind it is. -/
structure SplitsAfter (l : List α) (value : α) (first len : Nat) : Prop where
  bound : first + len ≤ l.length
  before : ∀ i x, i < first → l[i]? = some x → x ≤ value
  behind : ∀ i x, first + len ≤ i → l[i]? = some x → value < x

theorem splitsAfter_upperBound (hSorted : l.Pairwise (· ≤ ·)) (h : SplitsAfter l value first len) :
    SplitsAfter l value (upperBound l value first len) 0 := by
  induction len using Nat.strongRecOn generalizing first with
  | ind len ih =>
      rw [upperBound]
      split_ifs with hNone hAbove
      · rwa [hNone] at h
      · obtain ⟨x, hx, hLt⟩ := hAbove
        have hBound := h.bound
        apply ih _ (by omega)
        refine ⟨by omega, h.before, fun i y hi hy => ?_⟩
        exact hLt.trans_le (le_of_index_le hSorted hi hx hy)
      · have hBound := h.bound
        have hMiddle : l[first + len / 2]? = some l[first + len / 2] :=
          List.getElem?_eq_getElem (by omega)
        have hLe : l[first + len / 2] ≤ value := le_of_not_gt fun hLt => hAbove ⟨_, hMiddle, hLt⟩
        apply ih _ (by omega)
        refine ⟨by omega, fun i y hi hy => ?_, fun i y hi hy => h.behind i y (by omega) hy⟩
        exact (le_of_index_le hSorted (Nat.lt_succ_iff.mp hi) hy hMiddle).trans hLe

/-- A position that separates what has a property from what has it not. -/
theorem countP_eq {β : Type*} {l : List β} {p : β → Bool} {k : Nat} (hBound : k ≤ l.length)
    (hBefore : ∀ i x, i < k → l[i]? = some x → p x = true)
    (hBehind : ∀ i x, k ≤ i → l[i]? = some x → p x = false) : l.countP p = k := by
  have hTake : (l.take k).countP p = (l.take k).length := by
    rw [List.countP_eq_length]
    intro x hx
    obtain ⟨i, hi⟩ := List.mem_iff_getElem?.mp hx
    rw [List.getElem?_take] at hi
    split_ifs at hi with hLt
    exact hBefore i x hLt hi
  have hDrop : (l.drop k).countP p = 0 := by
    rw [List.countP_eq_zero]
    intro x hx
    obtain ⟨i, hi⟩ := List.mem_iff_getElem?.mp hx
    rw [List.getElem?_drop] at hi
    rw [hBehind _ x (Nat.le_add_right k i) hi]
    decide
  calc l.countP p = (l.take k ++ l.drop k).countP p := by rw [List.take_append_drop]
    _ = k := by
      rw [List.countP_append, hTake, hDrop, List.length_take]
      omega

theorem lowerBound_eq_countP (hSorted : l.Pairwise (· ≤ ·)) (h : Splits l value first len) :
    lowerBound l value first len = l.countP (· < value) := by
  have hSplits := splits_lowerBound hSorted h
  symm
  apply countP_eq (by simpa using hSplits.bound)
  · intro i x hi hx
    simpa using hSplits.before i x hi hx
  · intro i x hi hx
    simpa using hSplits.behind i x hi hx

theorem upperBound_eq_countP (hSorted : l.Pairwise (· ≤ ·)) (h : SplitsAfter l value first len) :
    upperBound l value first len = l.countP (· ≤ value) := by
  have hSplits := splitsAfter_upperBound hSorted h
  symm
  apply countP_eq (by simpa using hSplits.bound)
  · intro i x hi hx
    simpa using hSplits.before i x hi hx
  · intro i x hi hx
    simpa using hSplits.behind i x hi hx

end Counts
end SortedRange
