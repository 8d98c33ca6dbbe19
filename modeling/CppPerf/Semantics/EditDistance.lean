import Mathlib.Data.List.Basic
import Mathlib.Order.Bounds.Basic
import Mathlib.Order.MinMax
import Mathlib.Tactic.Common

/-! Scripts that edit a list one element at a time, and the length of a shortest one. -/
namespace EditDistance

variable {α : Type*} {m n : Nat} {s s' t u v : List α}

/-- One element is inserted, deleted or replaced. -/
inductive Edit : List α → List α → Prop where
  | insert (u v : List α) (a : α) : Edit (u ++ v) (u ++ a :: v)
  | delete (u v : List α) (a : α) : Edit (u ++ a :: v) (u ++ v)
  | replace (u v : List α) (a b : α) : Edit (u ++ a :: v) (u ++ b :: v)

/-- One edit after the other, `n` in all. -/
inductive Script : Nat → List α → List α → Prop where
  | refl (s : List α) : Script 0 s s
  | edit {n : Nat} {s t u : List α} (first : Edit s t) (rest : Script n t u) : Script (n + 1) s u

section Scripts

theorem Edit.symm (h : Edit s t) : Edit t s := by
  cases h with
  | insert u v a => exact .delete u v a
  | delete u v a => exact .insert u v a
  | replace u v a b => exact .replace u v b a

theorem Edit.reverse (h : Edit s t) : Edit s.reverse t.reverse := by
  cases h with
  | insert u v a => simpa using Edit.insert v.reverse u.reverse a
  | delete u v a => simpa using Edit.delete v.reverse u.reverse a
  | replace u v a b => simpa using Edit.replace v.reverse u.reverse a b

theorem Edit.cons (c : α) (h : Edit s t) : Edit (c :: s) (c :: t) := by
  cases h with
  | insert u v a => exact .insert (c :: u) v a
  | delete u v a => exact .delete (c :: u) v a
  | replace u v a b => exact .replace (c :: u) v a b

theorem Script.trans (h : Script m s t) (h' : Script n t u) : Script (m + n) s u := by
  induction h with
  | refl s => rwa [Nat.zero_add]
  | edit first rest ih =>
      rw [Nat.add_right_comm]
      exact .edit first (ih h')

theorem Script.single (h : Edit s t) : Script 1 s t := .edit h (.refl t)

theorem Script.symm (h : Script n s t) : Script n t s := by
  induction h with
  | refl s => exact .refl s
  | edit first rest ih => exact ih.trans (.single first.symm)

theorem Script.reverse (h : Script n s t) : Script n s.reverse t.reverse := by
  induction h with
  | refl s => exact .refl _
  | edit first rest ih => exact .edit first.reverse ih

theorem Script.cons (c : α) (h : Script n s t) : Script n (c :: s) (c :: t) := by
  induction h with
  | refl s => exact .refl _
  | edit first rest ih => exact .edit (first.cons c) ih

theorem Script.eq_of_zero (h : Script 0 s t) : s = t := by
  cases h
  rfl

end Scripts

/-- A script that goes through both lists from the left, and may keep an element. -/
inductive Align : Nat → List α → List α → Prop where
  | nil : Align 0 [] []
  | insert {n : Nat} {s t : List α} (a : α) (rest : Align n s t) : Align (n + 1) s (a :: t)
  | delete {n : Nat} {s t : List α} (a : α) (rest : Align n s t) : Align (n + 1) (a :: s) t
  | keep {n : Nat} {s t : List α} (a : α) (rest : Align n s t) : Align n (a :: s) (a :: t)
  | replace {n : Nat} {s t : List α} (a b : α) (rest : Align n s t) :
      Align (n + 1) (a :: s) (b :: t)

section Alignments

theorem Align.refl (s : List α) : Align 0 s s := by
  induction s with
  | nil => exact .nil
  | cons a s ih => exact .keep a ih

theorem align_nil_left (t : List α) : Align t.length [] t := by
  induction t with
  | nil => exact .nil
  | cons b t ih => exact .insert b ih

theorem align_nil_right (s : List α) : Align s.length s [] := by
  induction s with
  | nil => exact .nil
  | cons a s ih => exact .delete a ih

theorem Align.script (h : Align n s t) : Script n s t := by
  induction h with
  | nil => exact .refl []
  | @insert n s t a rest ih => exact .edit (.insert [] s a) (ih.cons a)
  | @delete n s t a rest ih => exact .edit (.delete [] s a) ih
  | keep a rest ih => exact ih.cons a
  | @replace n s t a b rest ih => exact .edit (.replace [] s a b) (ih.cons b)

/-- An alignment of `s'` gives one of `s`, which costs at most one more. -/
def Near (s s' : List α) : Prop :=
  ∀ n t, Align n s' t → ∃ m, m ≤ n + 1 ∧ Align m s t

theorem near_insert (a : α) (v : List α) : Near v (a :: v) := by
  intro n t h
  generalize hs : a :: v = s at h
  induction h with
  | nil => cases hs
  | insert b rest ih =>
      obtain ⟨m, hm, hAlign⟩ := ih hs
      exact ⟨m + 1, Nat.succ_le_succ hm, .insert b hAlign⟩
  | @delete n s t b rest ih =>
      obtain ⟨rfl, rfl⟩ := List.cons.inj hs
      exact ⟨n, by omega, rest⟩
  | @keep n s t b rest ih =>
      obtain ⟨rfl, rfl⟩ := List.cons.inj hs
      exact ⟨n + 1, le_rfl, .insert a rest⟩
  | @replace n s t b c rest ih =>
      obtain ⟨rfl, rfl⟩ := List.cons.inj hs
      exact ⟨n + 1, by omega, .insert c rest⟩

theorem near_delete (a : α) (v : List α) : Near (a :: v) v := fun n _ h =>
  ⟨n + 1, le_rfl, .delete a h⟩

theorem near_replace (a b : α) (v : List α) : Near (a :: v) (b :: v) := by
  intro n t h
  generalize hs : b :: v = s at h
  induction h with
  | nil => cases hs
  | insert c rest ih =>
      obtain ⟨m, hm, hAlign⟩ := ih hs
      exact ⟨m + 1, Nat.succ_le_succ hm, .insert c hAlign⟩
  | @delete n s t c rest ih =>
      obtain ⟨rfl, rfl⟩ := List.cons.inj hs
      exact ⟨n + 1, by omega, .delete a rest⟩
  | @keep n s t c rest ih =>
      obtain ⟨rfl, rfl⟩ := List.cons.inj hs
      exact ⟨n + 1, le_rfl, .replace a b rest⟩
  | @replace n s t c d rest ih =>
      obtain ⟨rfl, rfl⟩ := List.cons.inj hs
      exact ⟨n + 1, by omega, .replace a d rest⟩

theorem Near.cons (c : α) (hNear : Near s s') : Near (c :: s) (c :: s') := by
  intro n t h
  generalize hs : c :: s' = r at h
  induction h with
  | nil => cases hs
  | insert b rest ih =>
      obtain ⟨m, hm, hAlign⟩ := ih hs
      exact ⟨m + 1, Nat.succ_le_succ hm, .insert b hAlign⟩
  | delete b rest ih =>
      obtain ⟨rfl, rfl⟩ := List.cons.inj hs
      obtain ⟨m, hm, hAlign⟩ := hNear _ _ rest
      exact ⟨m + 1, Nat.succ_le_succ hm, .delete c hAlign⟩
  | keep b rest ih =>
      obtain ⟨rfl, rfl⟩ := List.cons.inj hs
      obtain ⟨m, hm, hAlign⟩ := hNear _ _ rest
      exact ⟨m, hm, .keep c hAlign⟩
  | replace b d rest ih =>
      obtain ⟨rfl, rfl⟩ := List.cons.inj hs
      obtain ⟨m, hm, hAlign⟩ := hNear _ _ rest
      exact ⟨m + 1, Nat.succ_le_succ hm, .replace c d hAlign⟩

theorem Near.append (p : List α) (hNear : Near s s') : Near (p ++ s) (p ++ s') := by
  induction p with
  | nil => exact hNear
  | cons c p ih => exact ih.cons c

theorem Edit.near (h : Edit s t) : Near s t := by
  cases h with
  | insert u v a => exact (near_insert a v).append u
  | delete u v a => exact (near_delete a v).append u
  | replace u v a b => exact (near_replace a b v).append u

/-- Edits at any place and in any order are no better than an alignment. -/
theorem Script.align (h : Script n s t) : ∃ m, m ≤ n ∧ Align m s t := by
  induction h with
  | refl s => exact ⟨0, le_rfl, .refl s⟩
  | edit first rest ih =>
      obtain ⟨m, hm, hAlign⟩ := ih
      obtain ⟨k, hk, hAlign'⟩ := first.near _ _ hAlign
      exact ⟨k, by omega, hAlign'⟩

end Alignments

section Distance

variable [DecidableEq α] {a b : α}

/-- The length of a shortest script. -/
def dist : List α → List α → Nat
  | [], t => t.length
  | _ :: s, [] => s.length + 1
  | a :: s, b :: t =>
      min (if a = b then dist s t else 1 + dist s t) (1 + min (dist (a :: s) t) (dist s (b :: t)))
termination_by s t => s.length + t.length

@[simp] theorem dist_nil_left (t : List α) : dist [] t = t.length := by rw [dist]

@[simp] theorem dist_nil_right (s : List α) : dist s [] = s.length := by
  cases s with
  | nil => rw [dist]
  | cons a s => rw [dist, List.length_cons]

theorem dist_cons_cons (a b : α) (s t : List α) :
    dist (a :: s) (b :: t) =
      min (if a = b then dist s t else 1 + dist s t)
        (1 + min (dist (a :: s) t) (dist s (b :: t))) := by
  rw [dist]

theorem align_dist (s t : List α) : Align (dist s t) s t := by
  induction s, t using dist.induct with
  | case1 t =>
      rw [dist_nil_left]
      exact align_nil_left t
  | case2 a s =>
      rw [dist_nil_right]
      exact align_nil_right (a :: s)
  | case3 a s b t ihDiagonal ihInsert ihDelete =>
      rw [dist_cons_cons]
      rcases min_choice (if a = b then dist s t else 1 + dist s t)
        (1 + min (dist (a :: s) t) (dist s (b :: t))) with hMin | hMin
      · rw [hMin]
        split_ifs with hEq
        · rw [hEq]
          exact .keep b ihDiagonal
        · rw [Nat.add_comm]
          exact .replace a b ihDiagonal
      · rw [hMin, Nat.add_comm]
        rcases min_choice (dist (a :: s) t) (dist s (b :: t)) with hLeft | hUp
        · rw [hLeft]
          exact .insert b ihInsert
        · rw [hUp]
          exact .delete a ihDelete

theorem dist_le_of_align (h : Align n s t) : dist s t ≤ n := by
  induction h with
  | nil => simp
  | @insert n s t a rest ih =>
      cases s with
      | nil =>
          rw [dist_nil_left] at ih ⊢
          exact Nat.succ_le_succ ih
      | cons c s =>
          rw [dist_cons_cons]
          omega
  | @delete n s t a rest ih =>
      cases t with
      | nil =>
          rw [dist_nil_right] at ih ⊢
          exact Nat.succ_le_succ ih
      | cons c t =>
          rw [dist_cons_cons]
          omega
  | keep a rest ih =>
      rw [dist_cons_cons, if_pos rfl]
      exact (Nat.min_le_left _ _).trans ih
  | replace a b rest ih =>
      rw [dist_cons_cons]
      split_ifs <;> omega

/-- No script is shorter. -/
theorem dist_isLeast (s t : List α) : IsLeast {n | Script n s t} (dist s t) := by
  refine ⟨(align_dist s t).script, fun n hn => ?_⟩
  obtain ⟨m, hm, hAlign⟩ := hn.align
  exact (dist_le_of_align hAlign).trans hm

theorem dist_le (h : Script n s t) : dist s t ≤ n := (dist_isLeast s t).2 h

theorem dist_script (s t : List α) : Script (dist s t) s t := (dist_isLeast s t).1

theorem dist_comm (s t : List α) : dist s t = dist t s :=
  Nat.le_antisymm (dist_le (dist_script t s).symm) (dist_le (dist_script s t).symm)

theorem dist_eq_zero : dist s t = 0 ↔ s = t := by
  refine ⟨fun h => ?_, fun h => ?_⟩
  · have hScript := dist_script s t
    rw [h] at hScript
    exact hScript.eq_of_zero
  · rw [h]
    exact Nat.le_zero.mp (dist_le (.refl t))

theorem dist_triangle (s t u : List α) : dist s u ≤ dist s t + dist t u :=
  dist_le ((dist_script s t).trans (dist_script t u))

theorem dist_reverse (s t : List α) : dist s.reverse t.reverse = dist s t := by
  refine Nat.le_antisymm (dist_le (dist_script s t).reverse) (dist_le ?_)
  have hBack := (dist_script s.reverse t.reverse).reverse
  rwa [List.reverse_reverse, List.reverse_reverse] at hBack

theorem dist_concat (a b : α) (s t : List α) :
    dist (s ++ [a]) (t ++ [b]) =
      min (if a = b then dist s t else 1 + dist s t)
        (1 + min (dist (s ++ [a]) t) (dist s (t ++ [b]))) := by
  rw [← dist_reverse, List.reverse_concat, List.reverse_concat, dist_cons_cons, dist_reverse,
    ← List.reverse_concat, ← List.reverse_concat, dist_reverse, dist_reverse]

end Distance
end EditDistance
