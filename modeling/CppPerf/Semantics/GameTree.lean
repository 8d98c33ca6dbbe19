import Mathlib.Order.MinMax
import Mathlib.Tactic.Common
import Mathlib.Tactic.Order

/-! Search of a game tree with a window. Of a value outside of the window only its side is
found. -/
namespace GameTree

variable {V : Type*} [LinearOrder V] {alpha beta a b score best r v : V}

/-- The same value, or two values on the same side of the window. -/
def Agree (alpha beta r v : V) : Prop := r = v ∨ (r ≤ alpha ∧ v ≤ alpha) ∨ (beta ≤ r ∧ beta ≤ v)

theorem Agree.eq_of_mem (h : Agree alpha beta r v) (hLow : alpha < v) (hHigh : v < beta) :
    r = v := by
  rcases h with hSame | ⟨-, hBelow⟩ | ⟨-, hAbove⟩
  · exact hSame
  · exact absurd hBelow hLow.not_ge
  · exact absurd hAbove hHigh.not_ge

/-- Where the player who raises the score stands: `a` is the lower end of the window as it was
raised so far, and `best` is the true score. -/
structure Raised (alpha beta a score best : V) : Prop where
  agree : Agree alpha beta score best
  bound : a ≤ alpha ∨ a ≤ score

theorem Raised.start (alpha beta score : V) : Raised alpha beta alpha score score :=
  ⟨Or.inl rfl, Or.inl le_rfl⟩

/-- The next branch was searched with the raised window. -/
theorem Raised.next (h : Raised alpha beta a score best) (hWindow : alpha < beta)
    (hr : a < beta → Agree a beta r v) :
    Raised alpha beta (max a (max score r)) (max score r) (max best v) := by
  obtain ⟨hAgree, hBound⟩ := h
  refine ⟨?_, ?_⟩
  · rcases lt_or_ge a beta with hOpen | hCut
    · rcases hAgree with rfl | ⟨hs, hb⟩ | ⟨hs, hb⟩
      · rcases hr hOpen with rfl | ⟨hr, hv⟩ | ⟨hr, hv⟩
        · exact Or.inl rfl
        · rcases hBound with hLow | hLow
          · rcases le_total score alpha with hScore | hScore
            · exact Or.inr (Or.inl ⟨max_le hScore (hr.trans hLow), max_le hScore (hv.trans hLow)⟩)
            · exact Or.inl (by rw [max_eq_left (by order), max_eq_left (by order)])
          · exact Or.inl (by rw [max_eq_left (by order), max_eq_left (by order)])
        · exact Or.inr (Or.inr ⟨le_max_of_le_right hr, le_max_of_le_right hv⟩)
      · have hLow : a ≤ alpha := hBound.elim id fun hLe => hLe.trans hs
        rcases hr hOpen with rfl | ⟨hr, hv⟩ | ⟨hr, hv⟩
        · rcases le_total r alpha with hSmall | hLarge
          · exact Or.inr (Or.inl ⟨max_le hs hSmall, max_le hb hSmall⟩)
          · exact Or.inl (by rw [max_eq_right (by order), max_eq_right (by order)])
        · exact Or.inr (Or.inl ⟨max_le hs (hr.trans hLow), max_le hb (hv.trans hLow)⟩)
        · exact Or.inr (Or.inr ⟨le_max_of_le_right hr, le_max_of_le_right hv⟩)
      · exact Or.inr (Or.inr ⟨le_max_of_le_left hs, le_max_of_le_left hb⟩)
    · have hs : beta ≤ score := hBound.elim (fun hLe => by order) fun hLe => hCut.trans hLe
      have hb : beta ≤ best := by
        rcases hAgree with rfl | ⟨hLow, -⟩ | ⟨-, hHigh⟩
        · exact hs
        · order
        · exact hHigh
      exact Or.inr (Or.inr ⟨le_max_of_le_left hs, le_max_of_le_left hb⟩)
  · rcases hBound with hLow | hLow
    · rcases le_total a (max score r) with hLe | hLe
      · exact Or.inr (by rw [max_eq_right hLe])
      · exact Or.inl (by rwa [max_eq_left hLe])
    · exact Or.inr (max_eq_right (le_max_of_le_left hLow)).le

/-- Once the window is closed the branches that are left out do not matter. -/
theorem Raised.cut (h : Raised alpha beta a score best) (hWindow : alpha < beta) (hCut : beta ≤ a)
    (v : V) : Raised alpha beta a score (max best v) := by
  obtain ⟨hAgree, hBound⟩ := h
  have hs : beta ≤ score := hBound.elim (fun hLe => by order) fun hLe => hCut.trans hLe
  refine ⟨Or.inr (Or.inr ⟨hs, le_max_of_le_left ?_⟩), hBound⟩
  rcases hAgree with rfl | ⟨hLow, -⟩ | ⟨-, hHigh⟩
  · exact hs
  · order
  · exact hHigh

theorem agree_toDual_iff : Agree (V := Vᵒᵈ) beta alpha r v ↔ Agree alpha beta r v :=
  or_congr_right Or.comm

/-- The same for the player who lowers the score. -/
structure Lowered (alpha beta b score best : V) : Prop where
  agree : Agree alpha beta score best
  bound : beta ≤ b ∨ score ≤ b

theorem lowered_iff : Lowered alpha beta b score best ↔
    Raised (V := Vᵒᵈ) beta alpha b score best :=
  ⟨fun h => ⟨agree_toDual_iff.mpr h.agree, h.bound⟩,
    fun h => ⟨agree_toDual_iff.mp h.agree, h.bound⟩⟩

theorem Lowered.start (alpha beta score : V) : Lowered alpha beta beta score score :=
  ⟨Or.inl rfl, Or.inl le_rfl⟩

theorem Lowered.next (h : Lowered alpha beta b score best) (hWindow : alpha < beta)
    (hr : alpha < b → Agree alpha b r v) :
    Lowered alpha beta (min b (min score r)) (min score r) (min best v) :=
  lowered_iff.mpr ((lowered_iff.mp h).next hWindow fun hOpen => agree_toDual_iff.mpr (hr hOpen))

theorem Lowered.cut (h : Lowered alpha beta b score best) (hWindow : alpha < beta)
    (hCut : b ≤ alpha) (v : V) : Lowered alpha beta b score (min best v) :=
  lowered_iff.mpr ((lowered_iff.mp h).cut hWindow hCut v)

section Forces

variable {P : Type*} {goal mine : P → Prop} {move : P → P → Prop} {p q : P}

/-- One of the players can reach the goal, whatever the other one does. -/
inductive Forces (goal mine : P → Prop) (move : P → P → Prop) : P → Prop
  | reached {p : P} : goal p → Forces goal mine move p
  | choose {p q : P} : mine p → move p q → Forces goal mine move q → Forces goal mine move p
  | forced {p : P} : ¬mine p → (∃ q, move p q) → (∀ q, move p q → Forces goal mine move q) →
      Forces goal mine move p

theorem forces_iff_of_mine (hMine : mine p) (hGoal : ¬goal p) :
    Forces goal mine move p ↔ ∃ q, move p q ∧ Forces goal mine move q := by
  constructor
  · intro h
    cases h with
    | reached h => exact absurd h hGoal
    | choose _ hMove hNext => exact ⟨_, hMove, hNext⟩
    | forced h => exact absurd hMine h
  · rintro ⟨q, hMove, hNext⟩
    exact .choose hMine hMove hNext

theorem forces_iff_of_not_mine (hMine : ¬mine p) (hGoal : ¬goal p) :
    Forces goal mine move p ↔ (∃ q, move p q) ∧ ∀ q, move p q → Forces goal mine move q := by
  constructor
  · intro h
    cases h with
    | reached h => exact absurd h hGoal
    | choose h => exact absurd h hMine
    | forced _ hSome hAll => exact ⟨hSome, hAll⟩
  · rintro ⟨hSome, hAll⟩
    exact .forced hMine hSome hAll

theorem forces_iff_of_stuck (hStuck : ∀ q, ¬move p q) : Forces goal mine move p ↔ goal p := by
  constructor
  · intro h
    cases h with
    | reached h => exact h
    | choose _ hMove => exact absurd hMove (hStuck _)
    | forced _ hSome => exact absurd hSome.choose_spec (hStuck _)
  · exact .reached

end Forces

end GameTree
