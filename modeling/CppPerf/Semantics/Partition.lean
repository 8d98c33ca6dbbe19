import Mathlib.Algebra.BigOperators.Group.Finset.Basic
import Mathlib.Data.Finset.Card
import Mathlib.Data.Finset.Lattice.Fold
import Mathlib.Logic.Relation
import Mathlib.Order.Lattice.Nat
import Mathlib.Tactic.Common

/-! The partition of the nodes of a graph into connected components, and its
representation by one node of each component. -/
namespace Partition

variable {α : Type*}

/-- Joined by a path of edges, which may be taken in both directions. -/
def Connected (edges : List (α × α)) : α → α → Prop :=
  Relation.EqvGen fun a b => (a, b) ∈ edges

namespace Connected

variable {edges : List (α × α)} {a b c u v : α}

theorem refl (a : α) : Connected edges a a := Relation.EqvGen.refl a

theorem symm (h : Connected edges a b) : Connected edges b a := Relation.EqvGen.symm _ _ h

theorem trans (h : Connected edges a b) (h' : Connected edges b c) : Connected edges a c :=
  Relation.EqvGen.trans _ _ _ h h'

theorem of_mem (h : (a, b) ∈ edges) : Connected edges a b := Relation.EqvGen.rel _ _ h

theorem eq_of_nil (h : Connected [] a b) : a = b := by
  induction h with
  | rel _ _ h => exact absurd h List.not_mem_nil
  | refl => rfl
  | symm _ _ _ ih => exact ih.symm
  | trans _ _ _ _ _ ih ih' => exact ih.trans ih'

/-- A function that agrees at the ends of every edge agrees along every path. -/
theorem map_eq {β : Type*} {f : α → β} (hEdge : ∀ a b, (a, b) ∈ edges → f a = f b)
    (h : Connected edges a b) : f a = f b := by
  induction h with
  | rel _ _ h => exact hEdge _ _ h
  | refl => rfl
  | symm _ _ _ ih => exact ih.symm
  | trans _ _ _ _ _ ih ih' => exact ih.trans ih'

theorem congr {P : α → Prop} (hEdge : ∀ a b, (a, b) ∈ edges → (P a ↔ P b))
    (h : Connected edges a b) : P a ↔ P b :=
  Iff.of_eq (h.map_eq fun a b hMem => propext (hEdge a b hMem))

theorem append (more : List (α × α)) (h : Connected edges a b) : Connected (edges ++ more) a b :=
  h.mono fun _ _ hMem => List.mem_append_left more hMem

end Connected

/-- `rep a` is the representative of the component of `a`. -/
structure Represents (rep : α → α) (edges : List (α × α)) : Prop where
  idem : ∀ a, rep (rep a) = rep a
  eq_iff : ∀ a b, rep a = rep b ↔ Connected edges a b

/-- The nodes that `p` represents go over to `q`. -/
def merge [DecidableEq α] (rep : α → α) (p q : α) : α → α := fun a =>
  if rep a = p then q else rep a

namespace Represents

variable {rep : α → α} {edges : List (α × α)} {u v : α}

theorem start : Represents id ([] : List (α × α)) where
  idem _ := rfl
  eq_iff a _ := ⟨fun h => Eq.subst h (Connected.refl a), Connected.eq_of_nil⟩

theorem same (h : Represents rep edges) (hSame : rep u = rep v) :
    Represents rep (edges ++ [(u, v)]) where
  idem := h.idem
  eq_iff a b := by
    constructor
    · intro hEq
      exact ((h.eq_iff a b).mp hEq).append _
    · refine Connected.map_eq fun a b hMem => ?_
      rcases List.mem_append.mp hMem with hOld | hNew
      · exact (h.eq_iff a b).mpr (Connected.of_mem hOld)
      · obtain ⟨rfl, rfl⟩ := Prod.mk.inj (List.mem_singleton.mp hNew)
        exact hSame

variable [DecidableEq α]

/-- A new edge, and the representative of one end goes over to that of the other. -/
theorem merged (h : Represents rep edges) {p q : α} (hNe : p ≠ q)
    (hEnds : p = rep u ∧ q = rep v ∨ p = rep v ∧ q = rep u) :
    Represents (merge rep p q) (edges ++ [(u, v)]) where
  idem a := by
    have hq : rep q = q := by
      rcases hEnds with ⟨-, rfl⟩ | ⟨-, rfl⟩
      · exact h.idem v
      · exact h.idem u
    unfold merge
    split_ifs with hMoved hBack hBack
    · rfl
    · exact hq
    · exact absurd (h.idem a ▸ hBack) hMoved
    · exact h.idem a
  eq_iff a b := by
    have hJoin : Connected (edges ++ [(u, v)]) p q := by
      have hEdge : Connected (edges ++ [(u, v)]) u v :=
        Connected.of_mem (List.mem_append_right edges (List.mem_singleton_self _))
      have hTo : ∀ w, Connected (edges ++ [(u, v)]) w (rep w) := fun w =>
        ((h.eq_iff w (rep w)).mp (h.idem w).symm).append _
      rcases hEnds with ⟨rfl, rfl⟩ | ⟨rfl, rfl⟩
      · exact ((hTo u).symm.trans hEdge).trans (hTo v)
      · exact ((hTo v).symm.trans hEdge.symm).trans (hTo u)
    have hMerge : ∀ w, Connected (edges ++ [(u, v)]) w (merge rep p q w) := by
      intro w
      have hTo := ((h.eq_iff w (rep w)).mp (h.idem w).symm).append [(u, v)]
      unfold merge
      split_ifs with hMoved
      · exact (hMoved ▸ hTo).trans hJoin
      · exact hTo
    constructor
    · intro hEq
      exact (hEq ▸ hMerge a).trans (hMerge b).symm
    · refine Connected.map_eq fun a b hMem => ?_
      rcases List.mem_append.mp hMem with hOld | hNew
      · rw [merge, merge, (h.eq_iff a b).mpr (Connected.of_mem hOld)]
      · obtain ⟨rfl, rfl⟩ := Prod.mk.inj (List.mem_singleton.mp hNew)
        unfold merge
        rcases hEnds with ⟨rfl, rfl⟩ | ⟨rfl, rfl⟩
        · rw [if_pos rfl, if_neg hNe.symm]
        · rw [if_neg hNe.symm, if_pos rfl]

end Represents

open Classical in
/-- The nodes that are connected with one of them. -/
noncomputable def component (nodes : Finset α) (edges : List (α × α)) (a : α) : Finset α :=
  nodes.filter fun b => Connected edges a b

theorem mem_component {nodes : Finset α} :
    b ∈ component nodes edges a ↔ b ∈ nodes ∧ Connected edges a b := by
  classical exact Finset.mem_filter

section Classes

variable [DecidableEq α] (nodes : Finset α)

open Classical in
/-- The components of the nodes, each as the set of its nodes. -/
noncomputable def classes (edges : List (α × α)) : Finset (Finset α) :=
  nodes.image fun a => nodes.filter fun b => Connected edges a b

noncomputable def classSizes (edges : List (α × α)) : Multiset Nat :=
  (classes nodes edges).val.map Finset.card

/-- The size of the largest component, 0 if there is none. -/
noncomputable def largest (edges : List (α × α)) : Nat := (classes nodes edges).sup Finset.card

/-- The nodes that represent their component. -/
def heads (rep : α → α) : Finset α := nodes.filter fun a => rep a = a

/-- The nodes that `r` represents. -/
def members (rep : α → α) (r : α) : Finset α := nodes.filter fun a => rep a = r

variable {nodes} {rep : α → α} {edges : List (α × α)} {a p q r : α}

@[simp] theorem mem_heads : a ∈ heads nodes rep ↔ a ∈ nodes ∧ rep a = a := Finset.mem_filter

@[simp] theorem mem_members : a ∈ members nodes rep r ↔ a ∈ nodes ∧ rep a = r :=
  Finset.mem_filter

theorem members_id (ha : a ∈ nodes) : members nodes id a = {a} := by
  ext b
  rw [mem_members, Finset.mem_singleton]
  exact ⟨And.right, fun h => ⟨h ▸ ha, h⟩⟩

theorem members_injOn : Set.InjOn (members nodes rep) (heads nodes rep) := by
  intro a ha b hb hEq
  obtain ⟨haNode, ha⟩ := mem_heads.mp ha
  have hMem : a ∈ members nodes rep b := hEq ▸ mem_members.mpr ⟨haNode, ha⟩
  rw [← ha]
  exact (mem_members.mp hMem).2

theorem card_members_pos (h : r ∈ heads nodes rep) : 0 < (members nodes rep r).card :=
  Finset.card_pos.mpr ⟨r, mem_members.mpr (mem_heads.mp h)⟩

theorem card_members_le_sup (h : r ∈ heads nodes rep) :
    (members nodes rep r).card ≤ (heads nodes rep).sup fun r => (members nodes rep r).card :=
  Finset.le_sup (f := fun r => (members nodes rep r).card) h

theorem Represents.members_eq (h : Represents rep edges) (a : α) :
    members nodes rep (rep a) = component nodes edges a := by
  ext b
  rw [mem_members, mem_component, ← h.eq_iff, eq_comm (a := rep b)]

namespace Represents

variable (h : Represents rep edges) (hNodes : ∀ a ∈ nodes, rep a ∈ nodes)
include h hNodes

open Classical in
theorem classes_eq : classes nodes edges = (heads nodes rep).image (members nodes rep) := by
  ext c
  rw [classes, Finset.mem_image, Finset.mem_image]
  constructor
  · rintro ⟨a, ha, rfl⟩
    exact ⟨rep a, mem_heads.mpr ⟨hNodes a ha, h.idem a⟩, h.members_eq a⟩
  · rintro ⟨r, hr, rfl⟩
    obtain ⟨hNode, hRep⟩ := mem_heads.mp hr
    exact ⟨r, hNode, (h.members_eq r).symm.trans (by rw [hRep])⟩

theorem card_classes : (classes nodes edges).card = (heads nodes rep).card := by
  rw [h.classes_eq hNodes, Finset.card_image_of_injOn members_injOn]

theorem classSizes_eq :
    classSizes nodes edges = (heads nodes rep).val.map fun r => (members nodes rep r).card := by
  rw [classSizes, h.classes_eq hNodes, Finset.image_val_of_injOn members_injOn, Multiset.map_map]
  rfl

theorem largest_eq :
    largest nodes edges = (heads nodes rep).sup fun r => (members nodes rep r).card := by
  rw [largest, h.classes_eq hNodes, Finset.sup_image]
  rfl

/-- Every node is in one component. -/
theorem sum_classSizes : (classSizes nodes edges).sum = nodes.card := by
  have hHead : ∀ a ∈ nodes, rep a ∈ heads nodes rep := fun a ha =>
    mem_heads.mpr ⟨hNodes a ha, h.idem a⟩
  rw [h.classSizes_eq hNodes, Finset.card_eq_sum_card_fiberwise hHead]
  rfl

/-- Two nodes that are connected are in a component of at least two. -/
theorem two_le_largest {a b : α} (ha : a ∈ nodes) (hb : b ∈ nodes) (hNe : a ≠ b)
    (hConnected : Connected edges a b) : 2 ≤ largest nodes edges := by
  rw [h.largest_eq hNodes]
  have hHead : rep a ∈ heads nodes rep := mem_heads.mpr ⟨hNodes a ha, h.idem a⟩
  refine le_trans ?_ (card_members_le_sup hHead)
  refine Finset.one_lt_card.mpr ⟨a, mem_members.mpr ⟨ha, rfl⟩, b, mem_members.mpr ⟨hb, ?_⟩, hNe⟩
  exact ((h.eq_iff a b).mpr hConnected).symm

end Represents

/-- A merge takes away one head. -/
theorem heads_merge (hp : p ∈ heads nodes rep) (hNe : p ≠ q) (hq : rep q = q) :
    heads nodes (merge rep p q) = (heads nodes rep).erase p := by
  obtain ⟨-, hp⟩ := mem_heads.mp hp
  ext a
  rw [Finset.mem_erase, mem_heads, mem_heads, merge]
  split_ifs with hMoved
  · constructor
    · rintro ⟨-, rfl⟩
      exact absurd (hMoved.symm.trans hq) hNe
    · rintro ⟨hNot, -, hRep⟩
      exact absurd (hRep.symm.trans hMoved) hNot
  · constructor
    · rintro ⟨hNode, hRep⟩
      exact ⟨fun hEq => hMoved (hEq ▸ hp), hNode, hRep⟩
    · exact And.right

theorem card_heads_merge (hp : p ∈ heads nodes rep) (hNe : p ≠ q) (hq : rep q = q) :
    (heads nodes (merge rep p q)).card + 1 = (heads nodes rep).card := by
  rw [heads_merge hp hNe hq]
  exact Finset.card_erase_add_one hp

theorem card_members_merge_self (hNe : p ≠ q) :
    (members nodes (merge rep p q) q).card =
      (members nodes rep q).card + (members nodes rep p).card := by
  rw [← Finset.card_union_of_disjoint]
  · congr 1
    ext a
    rw [Finset.mem_union, mem_members, mem_members, mem_members, merge]
    split_ifs with hMoved
    · simp [hMoved, hNe]
    · simp [hMoved]
  · refine Finset.disjoint_left.mpr fun a ha hb => hNe ?_
    rw [← (mem_members.mp ha).2, ← (mem_members.mp hb).2]

theorem members_merge_of_ne (hp : r ≠ p) (hq : r ≠ q) :
    members nodes (merge rep p q) r = members nodes rep r := by
  ext a
  rw [mem_members, mem_members, merge]
  split_ifs with hMoved
  · simp [hMoved, hp.symm, hq.symm]
  · rfl

/-- A merge makes one component larger. -/
theorem sup_members_merge (hp : p ∈ heads nodes rep) (hq : q ∈ heads nodes rep) (hNe : p ≠ q) :
    ((heads nodes (merge rep p q)).sup fun r => (members nodes (merge rep p q) r).card) =
      max ((heads nodes rep).sup fun r => (members nodes rep r).card)
        ((members nodes rep q).card + (members nodes rep p).card) := by
  rw [heads_merge hp hNe (mem_heads.mp hq).2]
  apply le_antisymm
  · refine Finset.sup_le fun r hr => ?_
    obtain ⟨hrp, hr⟩ := Finset.mem_erase.mp hr
    by_cases hrq : r = q
    · rw [hrq, card_members_merge_self hNe]
      exact le_max_right _ _
    · rw [members_merge_of_ne hrp hrq]
      exact (card_members_le_sup hr).trans (le_max_left _ _)
  · have hJoined : (members nodes rep q).card + (members nodes rep p).card ≤
        ((heads nodes rep).erase p).sup fun r => (members nodes (merge rep p q) r).card := by
      rw [← card_members_merge_self hNe]
      exact Finset.le_sup (f := fun r => (members nodes (merge rep p q) r).card)
        (Finset.mem_erase.mpr ⟨hNe.symm, hq⟩)
    refine max_le (Finset.sup_le fun r hr => ?_) hJoined
    by_cases hrp : r = p
    · rw [hrp]
      exact (Nat.le_add_left _ _).trans hJoined
    by_cases hrq : r = q
    · rw [hrq]
      exact (Nat.le_add_right _ _).trans hJoined
    · rw [← members_merge_of_ne hrp hrq]
      exact Finset.le_sup (f := fun r => (members nodes (merge rep p q) r).card)
        (Finset.mem_erase.mpr ⟨hrp, hr⟩)

end Classes

section Pairs

variable [LinearOrder α] (nodes : Finset α)

open Classical in
/-- The unordered pairs of nodes in different components. -/
noncomputable def separatedPairs (edges : List (α × α)) : Finset (α × α) :=
  (nodes ×ˢ nodes).filter fun e => e.1 < e.2 ∧ ¬Connected edges e.1 e.2

variable {nodes} {rep : α → α} {edges : List (α × α)}

/-- The pairs within one component. -/
theorem card_joined (h : Represents rep edges) (hNodes : ∀ a ∈ nodes, rep a ∈ nodes) :
    ((nodes ×ˢ nodes).filter fun e => rep e.1 = rep e.2).card =
      ((classSizes nodes edges).map fun s => s * s).sum := by
  have hHead : ∀ e ∈ (nodes ×ˢ nodes).filter fun e => rep e.1 = rep e.2,
      rep e.1 ∈ heads nodes rep := by
    intro e he
    have hNode := (Finset.mem_product.mp (Finset.mem_filter.mp he).1).1
    exact mem_heads.mpr ⟨hNodes _ hNode, h.idem _⟩
  have hFiber : ∀ r, (((nodes ×ˢ nodes).filter fun e => rep e.1 = rep e.2).filter fun e =>
      rep e.1 = r) = members nodes rep r ×ˢ members nodes rep r := by
    intro r
    ext e
    simp only [Finset.mem_filter, Finset.mem_product, mem_members]
    constructor
    · rintro ⟨⟨⟨hFst, hSnd⟩, hSame⟩, rfl⟩
      exact ⟨⟨hFst, rfl⟩, hSnd, hSame.symm⟩
    · rintro ⟨⟨hFst, rfl⟩, hSnd, hSame⟩
      exact ⟨⟨⟨hFst, hSnd⟩, hSame.symm⟩, rfl⟩
  rw [Finset.card_eq_sum_card_fiberwise hHead, h.classSizes_eq hNodes, Multiset.map_map]
  refine Finset.sum_congr rfl fun r _ => ?_
  rw [hFiber, Finset.card_product]
  rfl

/-- The pairs in different components, in either order, and the pairs within one. -/
theorem two_mul_card_separatedPairs (h : Represents rep edges)
    (hNodes : ∀ a ∈ nodes, rep a ∈ nodes) :
    2 * (separatedPairs nodes edges).card + ((classSizes nodes edges).map fun s => s * s).sum =
      nodes.card * nodes.card := by
  rw [← card_joined h hNodes, ← Finset.card_product]
  have hBelow : separatedPairs nodes edges =
      ((nodes ×ˢ nodes).filter fun e => ¬rep e.1 = rep e.2).filter fun e => e.1 < e.2 := by
    ext e
    simp only [separatedPairs, Finset.mem_filter, h.eq_iff]
    tauto
  have hAbove : (separatedPairs nodes edges).card =
      (((nodes ×ˢ nodes).filter fun e => ¬rep e.1 = rep e.2).filter fun e => ¬e.1 < e.2).card := by
    refine Finset.card_bij (fun e _ => e.swap) (fun e he => ?_) (fun e _ e' _ hEq => ?_)
      fun e he => ?_
    · rw [hBelow] at he
      simp only [Finset.mem_filter, Finset.mem_product, Prod.fst_swap, Prod.snd_swap] at he ⊢
      exact ⟨⟨he.1.1.symm, fun hSame => he.1.2 hSame.symm⟩, he.2.not_gt⟩
    · exact Prod.swap_injective hEq
    · rw [hBelow]
      simp only [Finset.mem_filter, Finset.mem_product] at he ⊢
      refine ⟨e.swap, ⟨⟨he.1.1.symm, fun hSame => he.1.2 hSame.symm⟩, ?_⟩, Prod.swap_swap e⟩
      exact lt_of_le_of_ne (not_lt.mp he.2) fun hEq => he.1.2 (congrArg rep hEq).symm
  have hSplit := Finset.card_filter_add_card_filter_not
    (s := (nodes ×ˢ nodes).filter fun e => ¬rep e.1 = rep e.2) fun e => e.1 < e.2
  have hAll := Finset.card_filter_add_card_filter_not (s := nodes ×ˢ nodes) fun e =>
    rep e.1 = rep e.2
  rw [← hBelow, ← hAbove] at hSplit
  omega

end Pairs
end Partition
