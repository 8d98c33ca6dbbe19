import Mathlib.Algebra.BigOperators.Group.Finset.Basic
import Mathlib.Data.List.Infix
import Mathlib.Logic.Function.Basic
import Mathlib.Tactic.Abel
import Mathlib.Tactic.Common

/-! Prefix trees: a node has a label and at most one child for each letter. -/
namespace PrefixTree

inductive Node (κ ν : Type) where
  | mk (val : ν) (child : κ → Option (Node κ ν))

namespace Node

variable {κ ν : Type}

def val : Node κ ν → ν
  | mk val _ => val

def child : Node κ ν → κ → Option (Node κ ν)
  | mk _ child => child

/-- A node without children. -/
def leaf (val : ν) : Node κ ν := mk val fun _ => none

def setVal (n : Node κ ν) (val : ν) : Node κ ν := mk val n.child

def setChild [DecidableEq κ] (n : Node κ ν) (k : κ) (m : Node κ ν) : Node κ ν :=
  mk n.val (Function.update n.child k (some m))

/-- The node at the end of a word. -/
def descend : List κ → Node κ ν → Option (Node κ ν)
  | [], n => some n
  | k :: w, n => (n.child k).bind (descend w)

/-- The label at the end of a word. -/
def label (w : List κ) (n : Node κ ν) : Option ν := (n.descend w).map val

/-- Change the label at the end of a word. Missing nodes are made on the way. -/
def modify [DecidableEq κ] (fresh : ν) (f : ν → ν) : List κ → Node κ ν → Node κ ν
  | [], n => n.setVal (f n.val)
  | k :: w, n => n.setChild k (modify fresh f w ((n.child k).getD (leaf fresh)))

@[simp] theorem label_nil (n : Node κ ν) : n.label [] = some n.val := rfl

theorem label_cons (k : κ) (w : List κ) (n : Node κ ν) :
    n.label (k :: w) = (n.child k).bind (label w) := by
  rw [label, descend, Option.map_bind]
  rfl

theorem label_isSome (w : List κ) (n : Node κ ν) :
    (n.label w).isSome = (n.descend w).isSome := Option.isSome_map

@[simp] theorem label_cons_setVal (k : κ) (w : List κ) (n : Node κ ν) (val : ν) :
    (n.setVal val).label (k :: w) = n.label (k :: w) := rfl

/-- The child that the next letter leads to has the labels of the old one, and
none but its own if it is new. -/
theorem label_getD_leaf (fresh : ν) (n : Node κ ν) (k : κ) (w : List κ) :
    ((n.child k).getD (leaf fresh)).label w =
      if w = [] then some ((n.label [k]).getD fresh) else n.label (k :: w) := by
  rw [label_cons, label_cons]
  cases n.child k with
  | none =>
      cases w with
      | nil => rfl
      | cons j w => rfl
  | some m =>
      cases w with
      | nil => rfl
      | cons j w => rfl

theorem label_getD_getD (fresh : ν) (n : Node κ ν) (k : κ) (w : List κ) :
    (((n.child k).getD (leaf fresh)).label w).getD fresh = (n.label (k :: w)).getD fresh := by
  rw [label_getD_leaf]
  split_ifs with hNil
  · rw [hNil, Option.getD_some]
  · rfl

section Modify

variable [DecidableEq κ] (fresh : ν) (f : ν → ν)

theorem child_setChild_self (n : Node κ ν) (k : κ) (m : Node κ ν) :
    (n.setChild k m).child k = some m := Function.update_self _ _ _

theorem child_setChild_of_ne (n : Node κ ν) {j k : κ} (m : Node κ ν) (h : j ≠ k) :
    (n.setChild k m).child j = n.child j := Function.update_of_ne h _ _

/-- The word gets the new label. The nodes on the way to it have a label, and all
other labels stay. -/
theorem label_modify (u w : List κ) (n : Node κ ν) :
    (modify fresh f w n).label u =
      if u = w then some (f ((n.label w).getD fresh))
      else if u <+: w then some ((n.label u).getD fresh) else n.label u := by
  induction w generalizing u n with
  | nil =>
      cases u with
      | nil => rfl
      | cons j u =>
          rw [modify, label_cons_setVal, if_neg (List.cons_ne_nil j u),
            if_neg fun h => List.cons_ne_nil j u (List.prefix_nil.mp h)]
  | cons k w ih =>
      cases u with
      | nil =>
          rw [if_neg (List.cons_ne_nil k w).symm, if_pos (List.nil_prefix)]
          rfl
      | cons j u =>
          rw [modify, label_cons]
          by_cases hEq : j = k
          · subst hEq
            rw [child_setChild_self, Option.bind_some, ih, label_getD_leaf, label_getD_leaf]
            simp only [List.cons.injEq, true_and, List.cons_prefix_cons]
            split_ifs with hSame hNil hPrefix hNil
            · rw [hNil]
              rfl
            · rfl
            · rw [hNil]
              rfl
            · rfl
            · rename_i hEmpty
              exact absurd (hEmpty ▸ List.nil_prefix) hPrefix
            · rfl
          · rw [child_setChild_of_ne _ _ hEq, ← label_cons,
              if_neg fun h => hEq (List.cons.inj h).1,
              if_neg fun h => hEq (List.cons_prefix_cons.mp h).1]

theorem label_modify_isSome (u w : List κ) (n : Node κ ν) :
    ((modify fresh f w n).label u).isSome ↔ u <+: w ∨ (n.label u).isSome := by
  rw [label_modify]
  split_ifs with hSame hPrefix
  · exact iff_of_true rfl (Or.inl (hSame ▸ List.prefix_rfl))
  · exact iff_of_true rfl (Or.inl hPrefix)
  · exact (or_iff_right hPrefix).symm

/-- The nodes of a tree are the prefixes of the words that were put into it. -/
theorem label_foldl_isSome (words : List (List κ)) (u : List κ) (n : Node κ ν) :
    ((words.foldl (fun n w => modify fresh f w n) n).label u).isSome ↔
      (∃ w ∈ words, u <+: w) ∨ (n.label u).isSome := by
  induction words generalizing n with
  | nil => simp
  | cons w words ih =>
      rw [List.foldl_cons, ih, label_modify_isSome]
      simp only [List.exists_mem_cons_iff]
      rw [or_assoc]
      exact or_left_comm

/-- Putting words marks them, and no others. -/
theorem label_foldl_eq_some {a : ν} (hFresh : fresh ≠ a) (words : List (List κ)) (u : List κ)
    (n : Node κ ν) :
    (words.foldl (fun n w => modify fresh (fun _ => a) w n) n).label u = some a ↔
      u ∈ words ∨ n.label u = some a := by
  induction words generalizing n with
  | nil => simp
  | cons w words ih =>
      rw [List.foldl_cons, ih, label_modify, List.mem_cons, or_assoc, or_left_comm]
      refine or_congr_right ?_
      split_ifs with hSame hPrefix
      · exact iff_of_true rfl (Or.inl hSame)
      · rw [or_iff_right hSame]
        cases n.label u with
        | none => simpa using hFresh
        | some b => rfl
      · exact (or_iff_right hSame).symm

end Modify
section Sum

variable [Fintype κ] {M : Type} [AddCommGroup M] (g : ν → M)

mutual

/-- The sum of what `g` makes of the labels. -/
def sumBy : Node κ ν → M
  | mk val child => g val + ∑ k, sumByChild (child k)

def sumByChild : Option (Node κ ν) → M
  | none => 0
  | some n => sumBy n

end

/-- The sum over the words with a prefix. -/
def subtotal (p : List κ) (n : Node κ ν) : M := sumByChild g (n.descend p)

theorem sumBy_eq (n : Node κ ν) : n.sumBy g = g n.val + ∑ k, sumByChild g (n.child k) := by
  cases n
  rw [sumBy]
  rfl

theorem sumBy_leaf (val : ν) : (leaf val : Node κ ν).sumBy g = g val := by
  rw [sumBy_eq]
  simp [leaf, child, sumByChild, Node.val]

theorem sumBy_setVal (n : Node κ ν) (val : ν) :
    (n.setVal val).sumBy g = n.sumBy g + (g val - g n.val) := by
  have hNew : (n.setVal val).sumBy g = g val + ∑ k, sumByChild g (n.child k) :=
    sumBy_eq g (n.setVal val)
  rw [hNew, sumBy_eq g n, add_comm (g n.val), add_add_sub_cancel, add_comm]

/-- The child that the next letter leads to adds nothing if it is new. -/
theorem subtotal_getD_leaf {fresh : ν} (hFresh : g fresh = 0) (n : Node κ ν) (k : κ) (p : List κ) :
    subtotal g p ((n.child k).getD (leaf fresh)) = subtotal g (k :: p) n := by
  rw [subtotal, subtotal, descend]
  cases n.child k with
  | some m => rfl
  | none =>
      cases p with
      | nil => exact (sumBy_leaf g fresh).trans hFresh
      | cons j p => rfl

variable [DecidableEq κ]

theorem sumBy_setChild (n : Node κ ν) (k : κ) (m : Node κ ν) :
    (n.setChild k m).sumBy g = n.sumBy g + (m.sumBy g - sumByChild g (n.child k)) := by
  have hOthers : ∑ j ∈ Finset.univ.erase k, sumByChild g ((n.setChild k m).child j) =
      ∑ j ∈ Finset.univ.erase k, sumByChild g (n.child j) :=
    Finset.sum_congr rfl fun j hj => by rw [child_setChild_of_ne _ _ (Finset.ne_of_mem_erase hj)]
  have hNew := Finset.add_sum_erase Finset.univ
    (fun j => sumByChild g ((n.setChild k m).child j)) (Finset.mem_univ k)
  have hOld := Finset.add_sum_erase Finset.univ
    (fun j => sumByChild g (n.child j)) (Finset.mem_univ k)
  rw [hOthers, child_setChild_self, sumByChild] at hNew
  rw [sumBy_eq, sumBy_eq g n, ← hNew, ← hOld]
  change g n.val + _ = _
  abel

/-- A new label changes the sums of all prefixes of its word. -/
theorem subtotal_modify (f : ν → ν) {fresh : ν} (hFresh : g fresh = 0) (p w : List κ)
    (n : Node κ ν) :
    subtotal g p (modify fresh f w n) = subtotal g p n +
      if p <+: w then g (f ((n.label w).getD fresh)) - g ((n.label w).getD fresh) else 0 := by
  induction w generalizing p n with
  | nil =>
      cases p with
      | nil =>
          rw [if_pos List.nil_prefix]
          exact sumBy_setVal g n _
      | cons j p =>
          rw [if_neg fun h => List.cons_ne_nil j p (List.prefix_nil.mp h), add_zero]
          rfl
  | cons k w ih =>
      cases p with
      | nil =>
          have hChild := ih [] ((n.child k).getD (leaf fresh))
          rw [if_pos List.nil_prefix, label_getD_getD, subtotal_getD_leaf g hFresh] at hChild
          have hRoot : subtotal g [] (modify fresh f (k :: w) n) = _ := sumBy_setChild g n k _
          have hOld : sumByChild g (n.child k) = subtotal g [k] n := by
            rw [subtotal, descend]
            cases n.child k <;> rfl
          rw [if_pos List.nil_prefix, hRoot, hOld]
          change subtotal g [] n + (subtotal g [] _ - _) = _
          rw [hChild, add_sub_cancel_left]
      | cons j p =>
          by_cases hEq : j = k
          · subst hEq
            simp only [List.cons_prefix_cons, true_and]
            have hStep : subtotal g (j :: p) (modify fresh f (j :: w) n) =
                subtotal g p (modify fresh f w ((n.child j).getD (leaf fresh))) := by
              rw [subtotal, subtotal, descend, modify, child_setChild_self, Option.bind_some]
            rw [hStep, ih, label_getD_getD, subtotal_getD_leaf g hFresh]
          · rw [if_neg fun h => hEq (List.cons_prefix_cons.mp h).1, add_zero, subtotal, subtotal,
              descend, descend, modify, child_setChild_of_ne _ _ hEq]

end Sum
end Node
end PrefixTree
