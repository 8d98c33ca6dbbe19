import Mathlib.Data.List.Basic
import Mathlib.Tactic.Common

/-! Singly linked lists whose length is known. The link of the last cell is
never followed, so that anything may be stored there. -/
namespace CountedList

variable {A : Type*}

/-- The first `n` cells that the links lead through. -/
def follow (next : A → A) : A → Nat → List A
  | _, 0 => []
  | p, n + 1 => p :: follow next (next p) n

/-- The links lead through exactly these cells. -/
def Linked (next : A → A) : A → List A → Prop
  | _, [] => True
  | p, cell :: rest => p = cell ∧ Linked next (next cell) rest

variable {next next' : A → A} {p : A} {cells : List A}

theorem Linked.follow_eq (h : Linked next p cells) : follow next p cells.length = cells := by
  induction cells generalizing p with
  | nil => rfl
  | cons cell rest ih =>
      obtain ⟨rfl, hRest⟩ := h
      rw [List.length_cons, follow, ih hRest]

/-- Only the links of the cells matter. -/
theorem Linked.congr (h : Linked next p cells) (hSame : ∀ cell ∈ cells, next' cell = next cell) :
    Linked next' p cells := by
  induction cells generalizing p with
  | nil => exact h
  | cons cell rest ih =>
      refine ⟨h.1, ?_⟩
      rw [hSame cell List.mem_cons_self]
      exact ih h.2 fun other hOther => hSame other (List.mem_cons_of_mem _ hOther)

/-- A new first cell that links to the old one. -/
theorem Linked.push (h : Linked next p cells) {cell : A} (hLink : next' cell = p)
    (hSame : ∀ other ∈ cells, next' other = next other) : Linked next' cell (cell :: cells) := by
  refine ⟨rfl, ?_⟩
  rw [hLink]
  exact h.congr hSame

/-- Cells that are numbered consecutively, each with a link to the next number. -/
theorem linked_map_range' {f : Nat → A} {m n : Nat}
    (hLinks : ∀ i < m + n, next (f i) = f (i + 1)) :
    Linked next (f m) ((List.range' m n).map f) := by
  induction n generalizing m with
  | zero => trivial
  | succ n ih =>
      refine ⟨rfl, ?_⟩
      rw [hLinks m (by omega)]
      exact ih fun i hi => hLinks i (by omega)

end CountedList
