import Mathlib.Data.List.Dedup
import Mathlib.Order.Lattice

/-! Sets with their elements in increasing order, as lists. -/
namespace Ordered

variable {α : Type*} [LinearOrder α]

/-- An element that is there already is not inserted again. -/
def insertElement (a : α) : List α → List α
  | [] => [a]
  | b :: rest =>
      if a < b then a :: b :: rest else if b < a then b :: insertElement a rest else b :: rest

/-- Insert one element after the other. -/
def insertAll (elements : List α) (set : List α) : List α :=
  elements.foldl (fun set a => insertElement a set) set

variable {a b : α} {set elements : List α}

@[simp] theorem mem_insertElement : b ∈ insertElement a set ↔ b = a ∨ b ∈ set := by
  induction set with
  | nil => simp [insertElement]
  | cons c rest ih =>
      rw [insertElement]
      split_ifs with hBefore hAfter
      · rw [List.mem_cons]
      · rw [List.mem_cons, ih, List.mem_cons]
        exact or_left_comm
      · have hSame : a = c := le_antisymm (not_lt.mp hAfter) (not_lt.mp hBefore)
        rw [hSame, List.mem_cons, ← or_assoc, or_self]

theorem sorted_insertElement (a : α) (h : set.Pairwise (· < ·)) :
    (insertElement a set).Pairwise (· < ·) := by
  induction set with
  | nil => exact List.pairwise_singleton ..
  | cons c rest ih =>
      obtain ⟨hFirst, hRest⟩ := List.pairwise_cons.mp h
      rw [insertElement]
      split_ifs with hBefore hAfter
      · refine List.pairwise_cons.mpr ⟨fun x hx => ?_, h⟩
        rcases List.mem_cons.mp hx with rfl | hx
        · exact hBefore
        · exact hBefore.trans (hFirst x hx)
      · refine List.pairwise_cons.mpr ⟨fun x hx => ?_, ih hRest⟩
        rcases mem_insertElement.mp hx with rfl | hx
        · exact hAfter
        · exact hFirst x hx
      · exact h

@[simp] theorem mem_insertAll : b ∈ insertAll elements set ↔ b ∈ elements ∨ b ∈ set := by
  induction elements generalizing set with
  | nil => simp [insertAll]
  | cons a rest ih =>
      have hStep := @ih (insertElement a set)
      rw [insertAll] at hStep ⊢
      rw [List.foldl_cons, hStep, mem_insertElement, List.mem_cons, or_assoc, or_left_comm]

theorem sorted_insertAll (elements : List α) (h : set.Pairwise (· < ·)) :
    (insertAll elements set).Pairwise (· < ·) := by
  induction elements generalizing set with
  | nil => exact h
  | cons a rest ih => exact ih (sorted_insertElement a h)

theorem insertElement_ne_nil (a : α) (set : List α) : insertElement a set ≠ [] := by
  cases set with
  | nil => simp [insertElement]
  | cons c rest =>
      rw [insertElement]
      split_ifs <;> simp

/-- Nothing is inserted twice. -/
theorem length_insertAll_eq_iff (elements : List α) :
    (insertAll elements []).length = elements.length ↔ elements.Nodup := by
  have hSorted : (insertAll elements []).Pairwise (· < ·) := sorted_insertAll elements .nil
  have hNodup : (insertAll elements []).Nodup := hSorted.imp fun h => h.ne
  have hPerm : (insertAll elements []).Perm elements.dedup := by
    rw [List.perm_ext_iff_of_nodup hNodup elements.nodup_dedup]
    simp
  rw [hPerm.length_eq]
  constructor
  · intro hLength
    rw [← (List.dedup_sublist elements).eq_of_length hLength]
    exact elements.nodup_dedup
  · intro h
    rw [h.dedup]

end Ordered
