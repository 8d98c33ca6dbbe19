import CppPerf.Semantics.Enumeration
import Mathlib.Algebra.BigOperators.Ring.List
import Mathlib.Data.List.Sections

/-! Lists that are cut into pieces of one or two elements, and the lists that arise when each
element has several readings. -/
namespace Segmentation

open Enumeration

variable {α β R : Type*}

section Pieces

variable (piece : List α → Prop)

/-- The ways to cut a list into pieces of one or two elements. -/
def segmentations [DecidablePred piece] : List α → List (List (List α))
  | [] => [[]]
  | [a] => if piece [a] then [[[a]]] else []
  | a :: b :: l =>
      (if piece [a] then (segmentations (b :: l)).map ([a] :: ·) else []) ++
        if piece [a, b] then (segmentations l).map ([a, b] :: ·) else []

def IsSegmentation (l : List α) (pieces : List (List α)) : Prop :=
  pieces.flatten = l ∧ ∀ p ∈ pieces, piece p

variable {piece} {a b : α} {l p : List α} {rest pieces : List (List α)}

theorem isSegmentation_cons :
    IsSegmentation piece l (p :: rest) ↔ ∃ l', l = p ++ l' ∧ piece p ∧
      IsSegmentation piece l' rest := by
  simp only [IsSegmentation, List.flatten_cons, List.forall_mem_cons]
  constructor
  · rintro ⟨rfl, hPiece, hRest⟩
    exact ⟨rest.flatten, rfl, hPiece, rfl, hRest⟩
  · rintro ⟨l', rfl, hPiece, rfl, hRest⟩
    exact ⟨rfl, hPiece, hRest⟩

theorem enumerates_if {q : List (List α) → Prop} {x : List (List (List α))} {c : Prop}
    [Decidable c] (h : Enumerates x q) (p : List α) :
    Enumerates (if c then x.map (p :: ·) else []) fun y => c ∧ ∃ z, q z ∧ p :: z = y := by
  split_ifs with hc
  · exact (h.map fun _ _ hEq => List.tail_eq_of_cons_eq hEq).congr fun y => by simp [hc]
  · exact enumerates_nil fun y hy => hc hy.1

/-- The first piece has one element or two. -/
theorem isSegmentation_first (hPiece : ∀ p, piece p → p.length = 1 ∨ p.length = 2) :
    IsSegmentation piece (a :: l) pieces ↔
      (piece [a] ∧ ∃ z, IsSegmentation piece l z ∧ [a] :: z = pieces) ∨
      ∃ b l', l = b :: l' ∧ piece [a, b] ∧
        ∃ z, IsSegmentation piece l' z ∧ [a, b] :: z = pieces := by
  constructor
  · intro h
    cases pieces with
    | nil => cases h.1
    | cons p rest =>
        obtain ⟨l', hEq, hp, hRest⟩ := isSegmentation_cons.mp h
        rcases hPiece p hp with hLength | hLength
        · obtain ⟨c, rfl⟩ := List.length_eq_one_iff.mp hLength
          obtain ⟨rfl, rfl⟩ := List.cons.inj hEq
          exact Or.inl ⟨hp, rest, hRest, rfl⟩
        · obtain ⟨c, d, rfl⟩ := List.length_eq_two.mp hLength
          obtain ⟨rfl, rfl⟩ := List.cons.inj hEq
          exact Or.inr ⟨d, l', rfl, hp, rest, hRest, rfl⟩
  · rintro (⟨hp, z, hz, rfl⟩ | ⟨b, l', rfl, hp, z, hz, rfl⟩)
    · exact isSegmentation_cons.mpr ⟨l, rfl, hp, hz⟩
    · exact isSegmentation_cons.mpr ⟨l', rfl, hp, hz⟩

theorem isSegmentation_nil (hPiece : ∀ p, piece p → p.length = 1 ∨ p.length = 2) :
    IsSegmentation piece [] pieces ↔ pieces = [] := by
  constructor
  · intro h
    cases pieces with
    | nil => rfl
    | cons p rest =>
        obtain ⟨l', hEq, hp, -⟩ := isSegmentation_cons.mp h
        have hLength := hPiece p hp
        rw [(List.append_eq_nil_iff.mp hEq.symm).1] at hLength
        simp at hLength
  · rintro rfl
    exact ⟨rfl, by simp⟩

theorem enumerates_segmentations [DecidablePred piece]
    (hPiece : ∀ p, piece p → p.length = 1 ∨ p.length = 2)
    (l : List α) : Enumerates (segmentations piece l) (IsSegmentation piece l) := by
  induction l using List.twoStepInduction with
  | nil =>
      exact (enumerates_singleton []).congr fun x => (isSegmentation_nil hPiece).symm
  | singleton a =>
      have hNil := (enumerates_singleton ([] : List (List α))).congr fun x =>
        (isSegmentation_nil hPiece).symm
      refine (enumerates_if hNil [a]).congr fun x => ?_
      rw [isSegmentation_first hPiece]
      simp
  | cons_cons a b l ihTwo ihOne =>
      refine ((enumerates_if (ihOne b) [a]).append (enumerates_if ihTwo [a, b]) ?_).congr
        fun x => ?_
      · rintro x ⟨-, z, -, rfl⟩ ⟨-, z', -, hEq⟩
        simp at hEq
      · rw [isSegmentation_first hPiece]
        simp

end Pieces

section Count

variable [CommSemiring R] (one : α → R) (two : α → α → R)

/-- A piece of one element counts `one` times, a piece of two elements `two` times. -/
def count : List α → R
  | [] => 1
  | [a] => one a
  | a :: b :: l => one a * count (b :: l) + two a b * count l

theorem length_segmentations (piece : List α → Prop) [DecidablePred piece] (l : List α) :
    (segmentations piece l).length =
      count (fun a => if piece [a] then 1 else 0) (fun a b => if piece [a, b] then 1 else 0) l := by
  induction l using List.twoStepInduction with
  | nil => rfl
  | singleton a =>
      rw [segmentations, count]
      split_ifs <;> rfl
  | cons_cons a b l ihTwo ihOne =>
      rw [segmentations, count, List.length_append, ← ihOne, ← ihTwo]
      split_ifs <;> simp

theorem sum_sections_cons (f : List α → R) (x : List α) (L : List (List α)) :
    ((x :: L).sections.map f).sum =
      (L.sections.map fun l => (x.map fun a => f (a :: l)).sum).sum := by
  rw [List.sections, List.map_flatMap, List.flatMap_def, List.sum_flatten, List.map_map]
  simp [Function.comp_def]

/-- If each element has several readings, the pieces of all readings together are counted by
the sums over the readings of the elements. -/
theorem sum_count_sections (readings : β → List α) (s : List β) :
    ((s.map readings).sections.map (count one two)).sum =
      count (fun x => ((readings x).map one).sum)
        (fun x y => ((readings y).map fun b => ((readings x).map (two · b)).sum).sum) s := by
  induction s using count.induct with
  | case1 => simp [count, List.sections]
  | case2 x =>
      rw [List.map_cons, sum_sections_cons]
      simp [count, List.sections]
  | case3 x y s ihOne ihTwo =>
      rw [count, ← ihOne, ← ihTwo, List.map_cons, List.map_cons, sum_sections_cons,
        sum_sections_cons, sum_sections_cons]
      simp only [count, List.sum_map_add, List.sum_map_mul_left, List.sum_map_mul_right]

end Count

section Sections

theorem nodup_sections {L : List (List α)} (h : ∀ x ∈ L, x.Nodup) : L.sections.Nodup := by
  induction L with
  | nil => simp [List.sections]
  | cons x L ih =>
      rw [List.forall_mem_cons] at h
      rw [List.sections, List.nodup_flatMap]
      constructor
      · intro l _
        exact h.1.map fun _ _ hEq => List.head_eq_of_cons_eq hEq
      · refine (ih h.2).imp fun hNe => ?_
        intro y hy hy'
        obtain ⟨a, -, rfl⟩ := List.mem_map.mp hy
        obtain ⟨b, -, hEq⟩ := List.mem_map.mp hy'
        exact hNe (List.tail_eq_of_cons_eq hEq).symm

end Sections
end Segmentation
