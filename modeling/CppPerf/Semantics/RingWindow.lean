import Mathlib.Data.List.Basic
import Mathlib.Logic.Function.Basic
import Mathlib.Tactic.Common

/-! A list kept in consecutive slots of a ring. Positions count up without
bound and are taken modulo the number of slots. Slots outside of the window
hold anything. -/
namespace Ring

variable {α : Type*}

/-- The slots from `first` on hold these items. -/
def Window (slots : Nat → α) (size first : Nat) (items : List α) : Prop :=
  ∀ i (h : i < items.length), slots ((first + i) % size) = items[i]

/-- Positions less than a round apart have different slots. -/
theorem mod_inj {size i j : Nat} (hLe : i ≤ j) (hLt : j < i + size) (hMod : i % size = j % size) :
    i = j := by
  have hDiff : (j - i) % size = 0 := by
    rw [Nat.sub_mod_eq_zero_of_mod_eq hMod.symm]
  rw [Nat.mod_eq_of_lt (by omega)] at hDiff
  omega

theorem succ_mod (size i : Nat) : (i % size + 1) % size = (i + 1) % size := Nat.mod_add_mod i size 1

/-- The next slot is the first one behind the last, and else one further. -/
theorem succ_mod_cases {size : Nat} (i : Nat) (hSize : 0 < size) :
    (i + 1) % size = 0 ∧ i % size + 1 = size ∨
      (i + 1) % size = i % size + 1 ∧ i % size + 1 < size := by
  have hLt := Nat.mod_lt i hSize
  rw [← succ_mod]
  by_cases hLast : i % size + 1 = size
  · exact Or.inl ⟨by rw [hLast, Nat.mod_self], hLast⟩
  · have hInside : i % size + 1 < size := by omega
    exact Or.inr ⟨Nat.mod_eq_of_lt hInside, hInside⟩

/-- The number of positions between two slots, as computed from the slots. -/
theorem distance_mod {size i j : Nat} (hLe : i ≤ j) (hLt : j < i + size) :
    (if i % size ≤ j % size then j % size - i % size else j % size + size - i % size) = j - i := by
  have hPos : 0 < size := by omega
  have hi := Nat.mod_add_div i size
  have hj := Nat.mod_add_div j size
  have hiLt := Nat.mod_lt i hPos
  have hjLt := Nat.mod_lt j hPos
  -- The two positions are in one round or in consecutive ones.
  have hRounds : j / size = i / size ∨ j / size = i / size + 1 := by
    have hLower : i / size ≤ j / size := Nat.div_le_div_right hLe
    have hUpper : j / size ≤ (i + size) / size := Nat.div_le_div_right (Nat.le_of_lt hLt)
    rw [Nat.add_div_right i hPos] at hUpper
    omega
  rcases hRounds with hSame | hNext
  · rw [hSame] at hj
    split_ifs <;> omega
  · rw [hNext, Nat.mul_add, Nat.mul_one] at hj
    split_ifs <;> omega

namespace Window

variable {slots : Nat → α} {size first : Nat} {items : List α} {x : α}

theorem nil (slots : Nat → α) (size first : Nat) : Window slots size first [] := by
  intro i hi
  exact absurd hi (Nat.not_lt_zero i)

theorem head (h : Window slots size first (x :: items)) : slots (first % size) = x :=
  h 0 (Nat.zero_lt_succ _)

theorem tail (h : Window slots size first (x :: items)) : Window slots size (first + 1) items := by
  intro i hi
  have hSlot := h (i + 1) (Nat.succ_lt_succ hi)
  rwa [show first + (i + 1) = first + 1 + i by omega] at hSlot

/-- A slot outside of the window is written. -/
theorem update_outside (h : Window slots size first items) {slot : Nat} (a : α)
    (hOutside : ∀ i < items.length, (first + i) % size ≠ slot) :
    Window (Function.update slots slot a) size first items := by
  intro i hi
  rw [Function.update_of_ne (hOutside i hi)]
  exact h i hi

/-- The slot behind the window is written, and the window grows by it. -/
theorem push (h : Window slots size first items) (hRoom : items.length < size) (a : α) :
    Window (Function.update slots ((first + items.length) % size) a) size first
      (items ++ [a]) := by
  intro i hi
  rw [List.length_append, List.length_singleton] at hi
  rcases Nat.lt_or_ge i items.length with hOld | hNew
  · have hOther : (first + i) % size ≠ (first + items.length) % size := by
      intro hEq
      have hSame := mod_inj (Nat.add_le_add_left (Nat.le_of_lt hOld) first) (by omega) hEq
      omega
    rw [Function.update_of_ne hOther, List.getElem_append_left hOld]
    exact h i hOld
  · obtain rfl : i = items.length := by omega
    rw [Function.update_self, List.getElem_concat_length rfl]

/-- The slot in front of the window is written. Its position is a round further, less one. -/
theorem push_front (h : Window slots size first items) (hRoom : items.length < size) (a : α) :
    Window (Function.update slots ((first + (size - 1)) % size) a) size (first + (size - 1))
      (a :: items) := by
  intro i hi
  cases i with
  | zero => rw [Nat.add_zero, Function.update_self, List.getElem_cons_zero]
  | succ i =>
      have hOld : i < items.length := Nat.lt_of_succ_lt_succ hi
      have hRound : (first + (size - 1) + (i + 1)) % size = (first + i) % size := by
        rw [show first + (size - 1) + (i + 1) = first + i + size by omega, Nat.add_mod_right]
      have hOther : (first + i) % size ≠ (first + (size - 1)) % size := by
        intro hEq
        have hSame := mod_inj (show first + i ≤ first + (size - 1) by omega) (by omega) hEq
        omega
      rw [hRound, Function.update_of_ne hOther, List.getElem_cons_succ]
      exact h i hOld

theorem dropLast (h : Window slots size first items) :
    Window slots size first items.dropLast := by
  intro i hi
  rw [List.getElem_dropLast]
  exact h i (Nat.lt_of_lt_of_le hi (by rw [List.length_dropLast]; exact Nat.sub_le _ _))

/-- The first item leaves, and its slot may hold anything afterwards. -/
theorem pop (h : Window slots size first (x :: items)) (hFit : items.length < size) (a : α) :
    Window (Function.update slots (first % size) a) size (first + 1) items := by
  apply h.tail.update_outside
  intro i hi hEq
  have hSame := mod_inj (show first ≤ first + 1 + i by omega) (by omega) hEq.symm
  omega

end Window
end Ring
