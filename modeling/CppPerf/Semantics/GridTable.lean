import Mathlib.Data.Option.Basic
import Mathlib.Tactic.Common

/-! Tables filled row by row, where an entry is computed from the ones above it
and to its left. -/
namespace GridTable

/-- A table with an entry for every row and column. -/
def Table (β : Type*) := Nat → Nat → β

variable {β : Type*}

namespace Table

def const (b : β) : Table β := fun _ _ => b

def set (dp : Table β) (i j : Nat) (b : β) : Table β :=
  fun k l => if k = i ∧ l = j then b else dp k l

variable (dp : Table β) {i j k l : Nat} {b : β}

@[simp] theorem set_self : dp.set i j b i j = b := by
  simp [set]

theorem set_of_ne (h : k ≠ i ∨ l ≠ j) : dp.set i j b k l = dp k l := by
  rw [set, if_neg]
  rintro ⟨rfl, rfl⟩
  simp at h

end Table

/-- The inner loop: the entries of row `i + 1` from column 1 to column `m`. -/
def fillRow (cell : Table β → Nat → Nat → Option β) (i : Nat) : Nat → Table β → Option (Table β)
  | 0, dp => some dp
  | j + 1, dp => do
      let dp ← fillRow cell i j dp
      let b ← cell dp i j
      return dp.set (i + 1) (j + 1) b

/-- Both loops: rows 1 to `n`. -/
def fillRows (cell : Table β → Nat → Nat → Option β) (m : Nat) :
    Nat → Table β → Option (Table β)
  | 0, dp => some dp
  | i + 1, dp => do
      let dp ← fillRows cell m i dp
      fillRow cell i m dp

section Rule

variable {cell : Table β → Nat → Nat → Option β} {dp : Table β} {n m : Nat}

/-- What is asked of an entry holds of the one computed from three neighbours of
which it holds. -/
def Propagates (cell : Table β → Nat → Nat → Option β) (R : Nat → Nat → β → Prop)
    (n m : Nat) : Prop :=
  ∀ dp i j, i < n → j < m → R i j (dp i j) → R i (j + 1) (dp i (j + 1)) →
    R (i + 1) j (dp (i + 1) j) → ∃ b, cell dp i j = some b ∧ R (i + 1) (j + 1) b

variable {R : Nat → Nat → β → Prop}

theorem fillRow_holds (hCell : Propagates cell R n m) {i : Nat} (hi : i < n)
    (hAbove : ∀ j ≤ m, R i j (dp i j)) (hStart : R (i + 1) 0 (dp (i + 1) 0)) :
    ∀ j ≤ m, ∃ dp', fillRow cell i j dp = some dp' ∧
      (∀ l ≤ j, R (i + 1) l (dp' (i + 1) l)) ∧
      ∀ k l, k ≠ i + 1 ∨ l = 0 → dp' k l = dp k l := by
  intro j hj
  induction j with
  | zero =>
      refine ⟨dp, rfl, fun l hl => ?_, fun _ _ _ => rfl⟩
      rw [Nat.le_zero.mp hl]
      exact hStart
  | succ j ih =>
      obtain ⟨dp', hFill, hRow, hKept⟩ := ih (by omega)
      have hUp : ∀ l ≤ m, R i l (dp' i l) := fun l hl => by
        rw [hKept i l (Or.inl (by omega))]
        exact hAbove l hl
      obtain ⟨b, hb, hHolds⟩ := hCell dp' i j hi (by omega) (hUp j (by omega)) (hUp (j + 1) hj)
        (hRow j (Nat.le_refl j))
      refine ⟨dp'.set (i + 1) (j + 1) b, by simp [fillRow, hFill, hb], fun l hl => ?_, ?_⟩
      · rcases Nat.lt_or_eq_of_le hl with hLt | rfl
        · rw [dp'.set_of_ne (Or.inr (by omega))]
          exact hRow l (by omega)
        · rw [dp'.set_self]
          exact hHolds
      · intro k l hkl
        rw [dp'.set_of_ne (by omega)]
        exact hKept k l hkl

/-- If it holds in row 0 and in column 0, it holds everywhere. -/
theorem fillRows_holds (hCell : Propagates cell R n m) (hRow : ∀ j ≤ m, R 0 j (dp 0 j))
    (hColumn : ∀ i ≤ n, R i 0 (dp i 0)) :
    ∃ dp', fillRows cell m n dp = some dp' ∧ ∀ i ≤ n, ∀ j ≤ m, R i j (dp' i j) := by
  have hRows : ∀ i ≤ n, ∃ dp', fillRows cell m i dp = some dp' ∧
      (∀ k ≤ i, ∀ l ≤ m, R k l (dp' k l)) ∧ ∀ k, dp' k 0 = dp k 0 := by
    intro i hi
    induction i with
    | zero =>
        refine ⟨dp, rfl, fun k hk => ?_, fun _ => rfl⟩
        rw [Nat.le_zero.mp hk]
        exact hRow
    | succ i ih =>
        obtain ⟨dp', hFill, hHolds, hKept⟩ := ih (by omega)
        have hStart : R (i + 1) 0 (dp' (i + 1) 0) := by
          rw [hKept]
          exact hColumn (i + 1) hi
        obtain ⟨dp'', hFill', hNew, hKept'⟩ := fillRow_holds hCell hi
          (hHolds i (Nat.le_refl i)) hStart m (Nat.le_refl m)
        refine ⟨dp'', by simp [fillRows, hFill, hFill'], fun k hk l hl => ?_, fun k => ?_⟩
        · rcases Nat.lt_or_eq_of_le hk with hLt | rfl
          · rw [hKept' k l (Or.inl (by omega))]
            exact hHolds k (by omega) l hl
          · exact hNew l hl
        · rw [hKept' k 0 (Or.inr rfl), hKept]
  obtain ⟨dp', hFill, hHolds, -⟩ := hRows n (Nat.le_refl n)
  exact ⟨dp', hFill, hHolds⟩

end Rule
end GridTable
