import Mathlib.Data.List.Perm.Basic
import Mathlib.Tactic.Common

/-! Taking elements out of a list where the last element fills the hole, and whole runs of it. -/
namespace SwapRemove

variable {α : Type*} {l drawn rest : List α} {x y : α} {r : Nat} {rs : List Nat}

/-- The last element is put in place of the one at `r`. -/
def swapRemove (l : List α) (r : Nat) : List α :=
  l.getLast?.elim [] fun y => l.dropLast.set r y

@[simp] theorem swapRemove_concat (l : List α) (y : α) (r : Nat) :
    swapRemove (l ++ [y]) r = l.set r y := by
  rw [swapRemove, List.getLast?_concat, Option.elim_some, List.dropLast_concat]

theorem exists_concat (hr : l[r]? = some x) : ∃ before y, l = before ++ [y] := by
  have hNe : l ≠ [] := by
    rintro rfl
    cases hr
  exact ⟨l.dropLast, l.getLast hNe, (List.dropLast_concat_getLast hNe).symm⟩

theorem length_swapRemove (hr : l[r]? = some x) :
    (swapRemove l r).length + 1 = l.length := by
  obtain ⟨before, y, rfl⟩ := exists_concat hr
  rw [swapRemove_concat, List.length_set, List.length_append, List.length_singleton]

/-- Nothing else is lost. -/
theorem swapRemove_perm (hr : l[r]? = some x) : (x :: swapRemove l r).Perm l := by
  obtain ⟨before, y, rfl⟩ := exists_concat hr
  rw [swapRemove_concat]
  obtain ⟨hLt, hx⟩ := List.getElem?_eq_some_iff.mp hr
  rw [List.length_append, List.length_singleton] at hLt
  rcases Nat.lt_succ_iff_lt_or_eq.mp hLt with hInner | rfl
  · rw [List.getElem_append_left hInner] at hx
    subst hx
    have hSet := (List.set_perm_cons_eraseIdx hInner y).cons before[r]
    have hBack := (List.getElem_cons_eraseIdx_perm hInner).cons y
    exact hSet.trans ((List.Perm.swap y _ _).trans (hBack.trans
      (List.perm_append_singleton y before).symm))
  · rw [List.getElem_concat_length rfl] at hx
    subst hx
    rw [List.set_eq_of_length_le (Nat.le_refl _)]
    exact (List.perm_append_singleton y before).symm

theorem mem_swapRemove_iff (hNodup : l.Nodup) (hr : l[r]? = some x) :
    y ∈ swapRemove l r ↔ y ∈ l ∧ y ≠ x := by
  have hPerm := swapRemove_perm hr
  have hNotMem := (List.nodup_cons.mp (hPerm.nodup_iff.mpr hNodup)).1
  rw [← hPerm.mem_iff, List.mem_cons]
  constructor
  · intro hy
    refine ⟨Or.inr hy, ?_⟩
    rintro rfl
    exact hNotMem hy
  · rintro ⟨hEq | hy, hNe⟩
    · exact absurd hEq hNe
    · exact hy

/-- One element after the other is taken out. -/
def draws : (rs : List Nat) → List α → Option (List α × List α)
  | [], l => some ([], l)
  | r :: rs, l => do
      let x ← l[r]?
      let (drawn, rest) ← draws rs (swapRemove l r)
      return (x :: drawn, rest)

theorem draws_cons_eq_some_iff : draws (r :: rs) l = some (drawn, rest) ↔
    ∃ x later, l[r]? = some x ∧ draws rs (swapRemove l r) = some (later, rest) ∧
      drawn = x :: later := by
  simp only [draws, Option.bind_eq_bind, Option.bind_eq_some_iff, Option.pure_def,
    Option.some.injEq, Prod.mk.injEq, Prod.exists]
  constructor
  · rintro ⟨x, hx, later, _, hRun, rfl, rfl⟩
    exact ⟨x, later, hx, hRun, rfl⟩
  · rintro ⟨x, later, hx, hRun, rfl⟩
    exact ⟨x, hx, later, rest, hRun, rfl, rfl⟩

theorem draws_perm (h : draws rs l = some (drawn, rest)) : (drawn ++ rest).Perm l := by
  induction rs generalizing l drawn with
  | nil =>
      obtain ⟨rfl, rfl⟩ := Prod.mk.inj (Option.some.inj h)
      exact List.Perm.refl _
  | cons r rs ih =>
      obtain ⟨x, later, hx, hRun, rfl⟩ := draws_cons_eq_some_iff.mp h
      exact ((ih hRun).cons x).trans (swapRemove_perm hx)

theorem length_draws (h : draws rs l = some (drawn, rest)) :
    rest.length + rs.length = l.length := by
  induction rs generalizing l drawn with
  | nil =>
      obtain ⟨rfl, rfl⟩ := Prod.mk.inj (Option.some.inj h)
      rfl
  | cons r rs ih =>
      obtain ⟨x, later, hx, hRun, rfl⟩ := draws_cons_eq_some_iff.mp h
      rw [List.length_cons, ← length_swapRemove hx, ← ih hRun, Nat.add_assoc]

/-- As many draws as there are elements give each of them once. -/
theorem draws_perm_of_length (h : draws rs l = some (drawn, rest)) (hAll : rs.length = l.length) :
    drawn.Perm l := by
  have hLength := length_draws h
  have hNone : rest = [] := List.length_eq_zero_iff.mp (by omega)
  have hPerm := draws_perm h
  rwa [hNone, List.append_nil] at hPerm

end SwapRemove
