import Mathlib.Data.Set.Card
import Mathlib.Logic.Relation

/-! Walks to one node of a directed graph given by adjacency lists. Parallel edges
are different edges, so a walk says which edge is taken at each node. -/
namespace Walks

variable {ι : Type*} (adj : ι → List ι)

def Reaches : ι → ι → Prop := Relation.ReflTransGen fun x y => y ∈ adj x

def OnCycle (x : ι) : Prop := Relation.TransGen (fun x y => y ∈ adj x) x x

variable {adj} {x y z : ι}

theorem Reaches.refl (x : ι) : Reaches adj x x := Relation.ReflTransGen.refl

theorem Reaches.trans (h : Reaches adj x y) (h' : Reaches adj y z) : Reaches adj x z :=
  Relation.ReflTransGen.trans h h'

theorem Reaches.of_mem (h : y ∈ adj x) : Reaches adj x y := Relation.ReflTransGen.single h

theorem OnCycle.of_mem (h : y ∈ adj x) (hBack : Reaches adj y x) : OnCycle adj x :=
  Relation.TransGen.head' h hBack

variable (adj) (dest : ι)

/-- A cycle on the way to the destination: it can be taken any number of times. -/
def Endless (u : ι) : Prop := ∃ x, Reaches adj u x ∧ OnCycle adj x ∧ Reaches adj x dest

/-- A walk is given by the position of each edge in the list of its node. -/
def IsWalk (x : ι) : List Nat → Prop
  | [] => x = dest
  | k :: p => ∃ y, (adj x)[k]? = some y ∧ IsWalk y p

def walks (x : ι) : Set (List Nat) := {p | IsWalk adj dest x p}

variable {adj dest} {p : List Nat}

theorem IsWalk.reaches (h : IsWalk adj dest x p) : Reaches adj x dest := by
  induction p generalizing x with
  | nil =>
      rw [IsWalk] at h
      rw [h]
      exact Reaches.refl dest
  | cons k p ih =>
      obtain ⟨y, hEdge, hRest⟩ := h
      exact (Reaches.of_mem (List.mem_of_getElem? hEdge)).trans (ih hRest)

theorem walks_eq_empty (h : ¬Reaches adj x dest) : walks adj dest x = ∅ := by
  ext p
  exact iff_of_false (fun hWalk => h (IsWalk.reaches hWalk)) id

/-- Without a cycle, only the empty walk stays at the destination. -/
theorem walks_dest (h : ¬OnCycle adj dest) : walks adj dest dest = {[]} := by
  ext p
  cases p with
  | nil => exact iff_of_true rfl rfl
  | cons k p =>
      refine iff_of_false ?_ (by simp)
      rintro ⟨y, hEdge, hRest⟩
      exact h (OnCycle.of_mem (List.mem_of_getElem? hEdge) hRest.reaches)

/-- The walks that take an edge of the list first. -/
def through (l : List ι) (S : ι → Set (List Nat)) : Set (List Nat) :=
  {q | ∃ k y p, l[k]? = some y ∧ p ∈ S y ∧ q = k :: p}

theorem walks_eq_through (hNe : x ≠ dest) :
    walks adj dest x = through (adj x) (walks adj dest) := by
  ext q
  cases q with
  | nil =>
      refine iff_of_false hNe ?_
      rintro ⟨k, y, p, -, -, hq⟩
      cases hq
  | cons k p =>
      constructor
      · rintro ⟨y, hEdge, hRest⟩
        exact ⟨k, y, p, hEdge, hRest, rfl⟩
      · rintro ⟨k', y, p', hEdge, hRest, hq⟩
        obtain ⟨rfl, rfl⟩ := List.cons.inj hq
        exact ⟨y, hEdge, hRest⟩

section Count

variable {S : ι → Set (List Nat)}

@[simp] theorem through_nil : through [] S = ∅ := by
  ext q
  simp [through]

/-- The position of the first edge is one more in the longer list. -/
def later : List Nat → List Nat
  | [] => []
  | k :: p => (k + 1) :: p

theorem later_injective : Function.Injective later := by
  intro p q h
  cases p with
  | nil => cases q with
    | nil => rfl
    | cons k q => cases h
  | cons k p => cases q with
    | nil => cases h
    | cons l q =>
        obtain ⟨hk, rfl⟩ := List.cons.inj h
        rw [Nat.succ.inj hk]

theorem through_cons (y : ι) (l : List ι) :
    through (y :: l) S = Set.image (List.cons 0) (S y) ∪ Set.image later (through l S) := by
  ext q
  constructor
  · rintro ⟨k, z, p, hEdge, hp, rfl⟩
    cases k with
    | zero =>
        rw [List.getElem?_cons_zero, Option.some.injEq] at hEdge
        rw [← hEdge] at hp
        exact Or.inl ⟨p, hp, rfl⟩
    | succ k => exact Or.inr ⟨k :: p, ⟨k, z, p, hEdge, hp, rfl⟩, rfl⟩
  · rintro (⟨p, hp, rfl⟩ | ⟨_, ⟨k, z, p, hEdge, hp, rfl⟩, rfl⟩)
    · exact ⟨0, y, p, rfl, hp, rfl⟩
    · exact ⟨k + 1, z, p, hEdge, hp, rfl⟩

theorem notMem_later {y : ι} {l : List ι} {q : List Nat}
    (hq : q ∈ Set.image (List.cons 0) (S y)) : q ∉ Set.image later (through l S) := by
  obtain ⟨p, -, rfl⟩ := hq
  rintro ⟨_, ⟨k, z, q, -, -, rfl⟩, hEq⟩
  exact Nat.succ_ne_zero k (List.cons.inj hEq).1

/-- The walks are counted edge by edge. -/
theorem ncard_through {l : List ι} (hFinite : ∀ y ∈ l, (S y).Finite) :
    (through l S).Finite ∧ (through l S).ncard = (l.map fun y => (S y).ncard).sum := by
  induction l with
  | nil => simp
  | cons y l ih =>
      obtain ⟨hRest, hCard⟩ := ih fun z hz => hFinite z (List.mem_cons_of_mem y hz)
      have hFirst := (hFinite y List.mem_cons_self).image (List.cons 0)
      rw [through_cons]
      constructor
      · exact hFirst.union (hRest.image later)
      · rw [Set.ncard_union_eq (Set.disjoint_left.mpr fun _ => notMem_later) hFirst
            (hRest.image later),
          Set.ncard_image_of_injective _ List.cons_injective,
          Set.ncard_image_of_injective _ later_injective, hCard, List.map_cons, List.sum_cons]

end Count
end Walks
