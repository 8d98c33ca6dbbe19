import Mathlib.Data.List.Basic
import Mathlib.Tactic.Common

/-! Singly linked lists whose cells are addresses of any type. `next` tells
what is stored in a cell. The cell before the first one (a head pointer, say)
is not part of the list. -/
namespace LinkedList

variable {A : Type*}

/-- The pointer leads through exactly these cells to the null pointer. -/
def IsList (next : A → A) (null : A) : A → List A → Prop
  | p, [] => p = null
  | p, cell :: rest => p = cell ∧ cell ≠ null ∧ IsList next null (next cell) rest

/-- The cell through which the list behind `front` is reached. -/
def lastCell (start : A) : List A → A
  | [] => start
  | cell :: front => lastCell cell front

variable {next next' : A → A} {null p start : A} {cells front back : List A}

theorem lastCell_mem (start : A) (front : List A) : lastCell start front ∈ start :: front := by
  induction front generalizing start with
  | nil => exact List.mem_singleton.mpr rfl
  | cons cell front ih => exact List.mem_cons_of_mem _ (ih cell)

theorem lastCell_concat (start : A) (front : List A) (cell : A) :
    lastCell start (front ++ [cell]) = cell := by
  induction front generalizing start with
  | nil => rfl
  | cons first front ih => exact ih first

theorem lastCell_append (start : A) (front rest : List A) :
    lastCell start (front ++ rest) = lastCell (lastCell start front) rest := by
  induction front generalizing start with
  | nil => rfl
  | cons cell front ih => exact ih cell

/-- Only what is stored in the cells of a list matters. -/
theorem IsList.congr (h : IsList next null p cells)
    (hSame : ∀ cell ∈ cells, next' cell = next cell) : IsList next' null p cells := by
  induction cells generalizing p with
  | nil => exact h
  | cons cell rest ih =>
      refine ⟨h.1, h.2.1, ?_⟩
      rw [hSame cell List.mem_cons_self]
      exact ih h.2.2 fun other hOther => hSame other (List.mem_cons_of_mem _ hOther)

/-- The list behind the front part. -/
theorem IsList.behind (h : IsList next null (next start) (front ++ back)) :
    IsList next null (next (lastCell start front)) back := by
  induction front generalizing start with
  | nil => exact h
  | cons cell front ih => exact ih h.2.2

/-- A new list behind the front part. Of the cells up to there only the last
one has changed. -/
theorem IsList.splice {tail : List A} (h : IsList next null (next start) (front ++ back))
    (hNodup : (start :: front).Nodup)
    (hSame : ∀ cell ∈ start :: front, cell ≠ lastCell start front → next' cell = next cell)
    (hTail : IsList next' null (next' (lastCell start front)) tail) :
    IsList next' null (next' start) (front ++ tail) := by
  induction front generalizing start with
  | nil => exact hTail
  | cons cell front ih =>
      have hNew := List.nodup_cons.mp hNodup
      have hStart : next' start = next start := by
        apply hSame start List.mem_cons_self
        intro hLast
        apply hNew.1
        rw [hLast]
        exact lastCell_mem cell front
      refine ⟨hStart.trans h.1, h.2.1, ?_⟩
      exact ih h.2.2 hNew.2 (fun other hOther => hSame other (List.mem_cons_of_mem _ hOther)) hTail

/-- The list behind a cell. -/
theorem IsList.suffix {cell : A} (h : IsList next null p (front ++ cell :: back)) :
    IsList next null (next cell) back := by
  induction front generalizing p with
  | nil => exact h.2.2
  | cons first front ih => exact ih h.2.2

/-- A pointer leads through one list only. -/
theorem IsList.unique {other : List A} (h : IsList next null p cells)
    (h' : IsList next null p other) : cells = other := by
  induction cells generalizing p other with
  | nil =>
      cases other with
      | nil => rfl
      | cons cell rest => exact absurd (h'.1.symm.trans h) h'.2.1
  | cons cell rest ih =>
      cases other with
      | nil => exact absurd (h.1.symm.trans h') h.2.1
      | cons cell' rest' =>
          obtain rfl : cell = cell' := h.1.symm.trans h'.1
          rw [ih h.2.2 h'.2.2]

/-- One list is reached through one pointer only. -/
theorem IsList.start_eq {q : A} (h : IsList next null p cells) (h' : IsList next null q cells) :
    p = q := by
  cases cells with
  | nil => exact h.trans h'.symm
  | cons cell rest => exact h.1.trans h'.1.symm

/-- Other cells behind a cell. The ones before it have not changed. -/
theorem IsList.relink {cell : A} {back' : List A} (h : IsList next null p (front ++ cell :: back))
    (hSame : ∀ other ∈ front, next' other = next other)
    (hBack : IsList next' null (next' cell) back') :
    IsList next' null p (front ++ cell :: back') := by
  induction front generalizing p with
  | nil => exact ⟨h.1, h.2.1, hBack⟩
  | cons first front ih =>
      refine ⟨h.1, h.2.1, ?_⟩
      rw [hSame first List.mem_cons_self]
      exact ih h.2.2 fun other hOther => hSame other (List.mem_cons_of_mem _ hOther)

/-- A cell is linked behind the last one. -/
theorem IsList.concat {last cell : A} (h : IsList next null p (front ++ [last]))
    (hSame : ∀ other ∈ front, next' other = next other) (hLast : next' last = cell)
    (hCell : cell ≠ null) (hEnd : next' cell = null) :
    IsList next' null p (front ++ [last] ++ [cell]) := by
  induction front generalizing p with
  | nil => exact ⟨h.1, h.2.1, hLast, hCell, hEnd⟩
  | cons first front ih =>
      refine ⟨h.1, h.2.1, ?_⟩
      rw [hSame first List.mem_cons_self]
      exact ih h.2.2 fun other hOther => hSame other (List.mem_cons_of_mem _ hOther)

/-- A cell leads to a later cell or to the null pointer. -/
theorem IsList.next_mem {cell : A} (h : IsList next null p cells) (hCell : cell ∈ cells) :
    next cell = null ∨ next cell ∈ cells.tail := by
  obtain ⟨front, back, rfl⟩ := List.append_of_mem hCell
  have hBack := h.suffix
  cases back with
  | nil => exact Or.inl hBack
  | cons later back =>
      rw [hBack.1]
      cases front <;> simp

/-- What holds of the pointers to a list and is passed on along it holds of its cells. -/
theorem IsList.forall_cells {P : A → Prop} (h : IsList next null p cells) (hStart : P p)
    (hNext : ∀ cell, P cell → cell ≠ null → P (next cell)) : ∀ cell ∈ cells, P cell := by
  induction cells generalizing p with
  | nil => exact fun cell hCell => absurd hCell List.not_mem_nil
  | cons first rest ih =>
      obtain ⟨rfl, hNull, hRest⟩ := h
      intro cell hCell
      rcases List.mem_cons.mp hCell with rfl | hCell
      · exact hStart
      · exact ih hRest (hNext p hStart hNull) cell hCell

/-- A list reached through its first cell. -/
theorem IsList.head (h : IsList next null p (cell :: cells)) : p = cell := h.1

end LinkedList
