import Mathlib.Data.Option.Basic
import Mathlib.Order.MinMax
import Mathlib.Tactic.Common

/-! Loops over an interval of numbers that may fail, and loops that keep the least of the values
they see. -/
namespace Loops

/-- A loop over an interval preserves what each of its rounds does. -/
theorem foldlM_range'_holds {β : Type*} {step : β → Nat → Option β} {P : Nat → β → Prop}
    (a n : Nat) (hStep : ∀ k b, a ≤ k → k < a + n → P k b → ∃ b', step b k = some b' ∧ P (k + 1) b')
    {b : β} (hStart : P a b) : ∃ b', (List.range' a n).foldlM step b = some b' ∧ P (a + n) b' := by
  induction n generalizing a b with
  | zero => exact ⟨b, rfl, hStart⟩
  | succ n ih =>
      obtain ⟨b', hRun, hNext⟩ := hStep a b (Nat.le_refl a) (by omega) hStart
      obtain ⟨last, hRest, hLast⟩ := ih (a + 1)
        (fun k b hk hLt => hStep k b (by omega) (by omega)) hNext
      refine ⟨last, ?_, by rwa [Nat.add_right_comm] at hLast⟩
      rw [List.range'_succ, List.foldlM_cons, hRun]
      exact hRest

section Least

variable {α M : Type*} [LinearOrder M]

theorem foldl_min_le (f : α → M) (l : List α) (b : M) :
    l.foldl (fun min_val x => min min_val (f x)) b ≤ b ∧
      ∀ x ∈ l, l.foldl (fun min_val x => min min_val (f x)) b ≤ f x := by
  induction l generalizing b with
  | nil => exact ⟨le_rfl, fun x hx => absurd hx List.not_mem_nil⟩
  | cons y l ih =>
      obtain ⟨hInit, hRest⟩ := ih (min b (f y))
      refine ⟨hInit.trans (min_le_left _ _), fun x hx => ?_⟩
      rcases List.mem_cons.mp hx with rfl | hx
      · exact hInit.trans (min_le_right _ _)
      · exact hRest x hx

theorem foldl_min_attained (f : α → M) (l : List α) (b : M) :
    l.foldl (fun min_val x => min min_val (f x)) b = b ∨
      ∃ x ∈ l, l.foldl (fun min_val x => min min_val (f x)) b = f x := by
  induction l generalizing b with
  | nil => exact Or.inl rfl
  | cons y l ih =>
      rw [List.foldl_cons]
      rcases ih (min b (f y)) with hInit | ⟨x, hx, hEq⟩
      · rw [hInit]
        rcases min_choice b (f y) with hLeft | hRight
        · exact Or.inl hLeft
        · exact Or.inr ⟨y, List.mem_cons_self, hRight⟩
      · exact Or.inr ⟨x, List.mem_cons_of_mem y hx, hEq⟩

theorem foldl_min_eq {f : α → M} {l : List α} {b v : M} (hStart : v ≤ b)
    (hLower : ∀ x ∈ l, v ≤ f x) (hFound : ∃ x ∈ l, f x = v) :
    l.foldl (fun min_val x => min min_val (f x)) b = v := by
  obtain ⟨x, hx, hEq⟩ := hFound
  have hLe := (foldl_min_le f l b).2 x hx
  apply le_antisymm (hEq ▸ hLe)
  rcases foldl_min_attained f l b with hInit | ⟨y, hy, hLast⟩
  · rwa [hInit]
  · rw [hLast]
    exact hLower y hy

end Least
end Loops
