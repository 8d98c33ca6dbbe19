import Mathlib.Data.List.Sort
import Mathlib.Logic.Equiv.Basic
import Mathlib.Logic.Relation
import Mathlib.Tactic.Common

/-! Selection by rank in a list that is rearranged by swaps. The element of a rank is
found where the list is split: nothing before the place is larger than anything from
it on. -/
namespace Ranking

variable {α : Type*}

theorem getElem?_swap {xs : List α} {p q : Nat} (hp : p < xs.length) (hq : q < xs.length)
    (i : Nat) : (xs.swap p q)[i]? = xs[Equiv.swap p q i]? := by
  rw [List.swap_eq_of_lt hp hq, List.getElem?_set, List.getElem?_set, List.length_set,
    Equiv.swap_apply_def]
  by_cases hSecond : q = i
  · subst hSecond
    rw [if_pos rfl, if_pos hq, if_pos rfl, ← List.getElem?_eq_getElem hp]
    split_ifs with hSame
    · rw [hSame]
    · rfl
  · rw [if_neg hSecond, if_neg (Ne.symm hSecond)]
    by_cases hFirst : p = i
    · rw [if_pos hFirst, if_pos hp, if_pos hFirst.symm, List.getElem?_eq_getElem hq]
    · rw [if_neg hFirst, if_neg (Ne.symm hFirst)]

theorem getElem?_swap_left {xs : List α} {p q : Nat} (hp : p < xs.length) (hq : q < xs.length) :
    (xs.swap p q)[p]? = xs[q]? := by
  rw [getElem?_swap hp hq, Equiv.swap_apply_left]

theorem getElem?_swap_right {xs : List α} {p q : Nat} (hp : p < xs.length) (hq : q < xs.length) :
    (xs.swap p q)[q]? = xs[p]? := by
  rw [getElem?_swap hp hq, Equiv.swap_apply_right]

theorem getElem?_swap_of_ne {xs : List α} {p q i : Nat} (hp : i ≠ p) (hq : i ≠ q) :
    (xs.swap p q)[i]? = xs[i]? := by
  by_cases hIn : p < xs.length ∧ q < xs.length
  · rw [getElem?_swap hIn.1 hIn.2, Equiv.swap_apply_of_ne_of_ne hp hq]
  · rw [List.swap_eq, dif_neg hIn]

/-- Two neighbours. -/
theorem swap_middle (xs : List α) (a b : α) (rest : List α) :
    (xs ++ a :: b :: rest).swap (xs.length + 1) xs.length = xs ++ b :: a :: rest := by
  induction xs with
  | nil => rfl
  | cons x xs ih => rw [List.length_cons, List.cons_append, List.swap_cons, ih, List.cons_append]

theorem mem_drop_iff {k : Nat} {x : α} {xs : List α} :
    x ∈ xs.drop k ↔ ∃ j, k ≤ j ∧ xs[j]? = some x := by
  rw [List.mem_iff_getElem?]
  constructor
  · rintro ⟨i, hi⟩
    exact ⟨k + i, Nat.le_add_right k i, by rwa [← List.getElem?_drop]⟩
  · rintro ⟨j, hj, hx⟩
    exact ⟨j - k, by rwa [List.getElem?_drop, Nat.add_sub_cancel' hj]⟩

theorem mem_take_iff {k : Nat} {x : α} {xs : List α} :
    x ∈ xs.take k ↔ ∃ i < k, xs[i]? = some x := by
  rw [List.mem_iff_getElem?]
  refine exists_congr fun i => ?_
  rw [List.getElem?_take]
  split_ifs with hi
  · exact (and_iff_right hi).symm
  · exact iff_of_false (fun h => by cases h) fun h => hi h.1

/-- What lies from one place to another has a property. -/
def Within (lo hi : Nat) (P : α → Prop) (xs : List α) : Prop :=
  ∀ i a, lo ≤ i → i < hi → xs[i]? = some a → P a

section Within

variable {lo hi : Nat} {P Q : α → Prop} {xs : List α}

theorem Within.nil (h : hi ≤ lo) : Within lo hi P xs := fun i a hLow hHigh => by omega

theorem Within.imp (h : Within lo hi P xs) (hImp : ∀ a, P a → Q a) : Within lo hi Q xs :=
  fun i a hLow hHigh ha => hImp a (h i a hLow hHigh ha)

theorem Within.sub {lo' hi' : Nat} (h : Within lo hi P xs) (hLow : lo ≤ lo') (hHigh : hi' ≤ hi) :
    Within lo' hi' P xs := fun i a hi hi' => h i a (hLow.trans hi) (hi'.trans_le hHigh)

/-- One more place at the end. -/
theorem Within.snoc {a : α} (h : Within lo hi P xs) (hEnd : xs[hi]? = some a) (ha : P a) :
    Within lo (hi + 1) P xs := by
  intro i b hLow hHigh hb
  rcases Nat.lt_succ_iff_lt_or_eq.mp hHigh with hBefore | rfl
  · exact h i b hLow hBefore hb
  · rwa [← Option.some.inj (hEnd.symm.trans hb)]

end Within

/-- Swaps of places in a segment of the list. -/
def Swaps (lo hi : Nat) : List α → List α → Prop :=
  Relation.ReflTransGen fun xs ys => ∃ p q, (lo ≤ p ∧ p < hi ∧ p < xs.length) ∧
    (lo ≤ q ∧ q < hi ∧ q < xs.length) ∧ ys = xs.swap p q

section Swaps

variable {lo hi : Nat} {xs ys zs : List α}

theorem Swaps.refl (lo hi : Nat) (xs : List α) : Swaps lo hi xs xs := Relation.ReflTransGen.refl

theorem Swaps.swap {p q : Nat} (hp : lo ≤ p ∧ p < hi ∧ p < xs.length)
    (hq : lo ≤ q ∧ q < hi ∧ q < xs.length) : Swaps lo hi xs (xs.swap p q) :=
  Relation.ReflTransGen.single ⟨p, q, hp, hq, rfl⟩

theorem Swaps.trans (h : Swaps lo hi xs ys) (h' : Swaps lo hi ys zs) : Swaps lo hi xs zs :=
  Relation.ReflTransGen.trans h h'

theorem Swaps.perm (h : Swaps lo hi xs ys) : ys.Perm xs := by
  induction h with
  | refl => exact List.Perm.refl xs
  | tail _ hSwap ih =>
      obtain ⟨p, q, -, -, rfl⟩ := hSwap
      exact (List.swap_perm _ p q).trans ih

theorem Swaps.length_eq (h : Swaps lo hi xs ys) : ys.length = xs.length := h.perm.length_eq

end Swaps

section Order

variable [LinearOrder α]

/-- Nothing before the place is larger than anything from it on. -/
def SplitsAt (k : Nat) (xs : List α) : Prop :=
  ∀ i j a b, i < k → k ≤ j → xs[i]? = some a → xs[j]? = some b → a ≤ b

variable {k lo hi : Nat} {xs ys : List α} {m x : α}

theorem splitsAt_zero (xs : List α) : SplitsAt 0 xs := fun i j a b hi => by omega

theorem splitsAt_length (xs : List α) : SplitsAt xs.length xs := by
  intro i j a b _ hj _ hb
  rw [List.getElem?_eq_none hj] at hb
  cases hb

theorem SplitsAt.swaps (h : SplitsAt k xs) (hSwaps : Swaps lo hi xs ys)
    (hSide : k ≤ lo ∨ hi ≤ k) : SplitsAt k ys := by
  induction hSwaps with
  | refl => exact h
  | tail _ hSwap ih =>
      obtain ⟨p, q, hp, hq, rfl⟩ := hSwap
      intro i j a b hi hj ha hb
      rw [getElem?_swap hp.2.2 hq.2.2] at ha hb
      refine ih _ _ a b ?_ ?_ ha hb
      · rw [Equiv.swap_apply_def]
        split_ifs <;> omega
      · rw [Equiv.swap_apply_def]
        split_ifs <;> omega

/-- A segment between two splits is split at a place by a value. -/
theorem SplitsAt.between {hi' : Nat} (hLow : SplitsAt lo xs) (hHigh : SplitsAt hi' xs)
    (hk : lo ≤ k ∧ k ≤ hi') (hBefore : Within lo k (· ≤ x) xs) (hFrom : Within k hi' (x ≤ ·) xs) :
    SplitsAt k xs := by
  intro i j a b hi hj ha hb
  by_cases hFirst : i < lo
  · exact hLow i j a b hFirst (by omega) ha hb
  by_cases hLast : hi' ≤ j
  · exact hHigh i j a b (by omega) hLast ha hb
  exact (hBefore i a (by omega) hi ha).trans (hFrom j b hj (by omega) hb)

theorem mergeSort_congr (h : xs.Perm ys) :
    (xs.mergeSort fun a b => a ≤ b) = ys.mergeSort fun a b => a ≤ b := by
  have hPerm : (xs.mergeSort fun a b => a ≤ b).Perm (ys.mergeSort fun a b => a ≤ b) :=
    (List.mergeSort_perm xs _).trans (h.trans (List.mergeSort_perm ys _).symm)
  exact hPerm.eq_of_pairwise' (r := (· ≤ ·)) (List.pairwise_mergeSort' _ _)
    (List.pairwise_mergeSort' _ _)

/-- The two parts may be sorted by themselves. -/
theorem SplitsAt.mergeSort_eq (h : SplitsAt k xs) : (xs.mergeSort fun a b => a ≤ b) =
    ((xs.take k).mergeSort fun a b => a ≤ b) ++ (xs.drop k).mergeSort fun a b => a ≤ b := by
  have hPerm : (xs.mergeSort fun a b => a ≤ b).Perm
      (((xs.take k).mergeSort fun a b => a ≤ b) ++ (xs.drop k).mergeSort fun a b => a ≤ b) := by
    refine (List.mergeSort_perm _ _).trans ?_
    conv_lhs => rw [← List.take_append_drop k xs]
    exact (List.mergeSort_perm _ _).symm.append (List.mergeSort_perm _ _).symm
  refine hPerm.eq_of_pairwise' (r := (· ≤ ·)) (List.pairwise_mergeSort' _ _) ?_
  refine List.pairwise_append.mpr
    ⟨List.pairwise_mergeSort' _ _, List.pairwise_mergeSort' _ _, fun a ha b hb => ?_⟩
  obtain ⟨i, hi, ha⟩ := mem_take_iff.mp (List.mem_mergeSort.mp ha)
  obtain ⟨j, hj, hb⟩ := mem_drop_iff.mp (List.mem_mergeSort.mp hb)
  exact h i j a b hi hj ha hb

/-- Where the list is split, the smallest element from there on has that rank. -/
theorem SplitsAt.rank (h : SplitsAt k xs) {j : Nat} (hj : k ≤ j) (hm : xs[j]? = some m)
    (hMin : Within k xs.length (m ≤ ·) xs) : (xs.mergeSort fun a b => a ≤ b)[k]? = some m := by
  have hLength : ((xs.take k).mergeSort fun a b => a ≤ b).length = k := by
    have hj' := (List.getElem?_eq_some_iff.mp hm).1
    rw [List.length_mergeSort, List.length_take]
    omega
  have hMem : m ∈ (xs.drop k).mergeSort fun a b => a ≤ b :=
    List.mem_mergeSort.mpr (mem_drop_iff.mpr ⟨j, hj, hm⟩)
  have hSorted := List.pairwise_mergeSort' (· ≤ ·) (xs.drop k)
  rw [h.mergeSort_eq, List.getElem?_append_right (le_of_eq hLength), hLength, Nat.sub_self]
  cases hDrop : (xs.drop k).mergeSort fun a b => a ≤ b with
  | nil =>
      rw [hDrop] at hMem
      cases hMem
  | cons c cs =>
      obtain ⟨i, hi, hc⟩ := mem_drop_iff.mp
        (List.mem_mergeSort.mp (hDrop ▸ List.mem_cons_self : c ∈ _))
      have hLow : m ≤ c := hMin i c hi (List.getElem?_eq_some_iff.mp hc).1 hc
      have hHigh : c ≤ m := by
        rw [hDrop] at hMem hSorted
        rcases List.mem_cons.mp hMem with rfl | hRest
        · exact le_refl m
        · exact List.rel_of_pairwise_cons hSorted hRest
      exact congrArg some (le_antisymm hHigh hLow)

end Order
end Ranking
