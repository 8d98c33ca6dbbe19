import Mathlib.Data.List.Sort

/-! The heap algorithms of the C++ library on a range, where an element is compared by a key. -/
namespace HeapRange

variable {α κ : Type*} [LinearOrder κ]

/-- What the algorithms are documented to do. Which heap they make of a range is left open. -/
structure HeapAlgorithms (key : α → κ) where
  IsHeap : List α → Prop
  make_heap : List α → List α
  pop_heap : List α → List α
  push_heap : List α → List α
  make_spec : ∀ l, IsHeap (make_heap l) ∧ (make_heap l).Perm l
  /-- A greatest element is moved to the end, and a heap is left in front of it. -/
  pop_spec : ∀ l, IsHeap l → l ≠ [] → ∃ rest x, pop_heap l = rest ++ [x] ∧
    (rest ++ [x]).Perm l ∧ IsHeap rest ∧ ∀ y ∈ rest, key y ≤ key x
  push_spec : ∀ rest x, IsHeap rest →
    IsHeap (push_heap (rest ++ [x])) ∧ (push_heap (rest ++ [x])).Perm (rest ++ [x])

variable (key : α → κ)

/-- A range that does not increase is a heap. -/
def Descends (a b : α) : Prop := key b ≤ key a

instance : DecidableRel (Descends key) := fun a b => inferInstanceAs (Decidable (key b ≤ key a))

instance : Std.Total (Descends key) := ⟨fun a b => le_total (key b) (key a)⟩

instance : IsTrans α (Descends key) := ⟨fun _ _ _ hab hbc => le_trans hbc hab⟩

def sortRange (l : List α) : List α := l.insertionSort (Descends key)

theorem sortRange_spec (l : List α) :
    (sortRange key l).Pairwise (Descends key) ∧ (sortRange key l).Perm l :=
  ⟨List.pairwise_insertionSort _ l, List.perm_insertionSort _ l⟩

/-- The algorithms that keep the range sorted. -/
def sorted : HeapAlgorithms key where
  IsHeap l := l.Pairwise (Descends key)
  make_heap := sortRange key
  pop_heap
    | [] => []
    | x :: rest => rest ++ [x]
  push_heap := sortRange key
  make_spec := sortRange_spec key
  pop_spec l hHeap hSome := by
    cases l with
    | nil => exact absurd rfl hSome
    | cons x rest =>
        obtain ⟨hFirst, hRest⟩ := List.pairwise_cons.mp hHeap
        exact ⟨rest, x, rfl, List.perm_append_comm, hRest, hFirst⟩
  push_spec rest x _ := sortRange_spec key (rest ++ [x])

end HeapRange
