import Mathlib.Algebra.BigOperators.Intervals
import Mathlib.Data.List.TakeWhile
import Mathlib.Tactic.Common

/-! A stack from which each new element pops what it covers, and the intervals of a sequence by
their first minimum. -/
namespace PopStack

section Stack

variable {P : Type*} {pops : P → P → Bool} {x : P} {history : List P}

/-- The stack after these elements, of which the first is the last one that came. -/
def stack (pops : P → P → Bool) : List P → List P
  | [] => []
  | x :: history => x :: (stack pops history).dropWhile (pops x)

/-- What an element does not pop is found on the stack where it is found among all elements. -/
theorem find?_stack (hTrans : ∀ x y z, pops x y = true → pops y z = true → pops x z = true)
    (x : P) (history : List P) :
    (stack pops history).find? (fun y => !pops x y) = history.find? fun y => !pops x y := by
  induction history with
  | nil => rfl
  | cons y history ih =>
      rw [stack, List.find?_cons, List.find?_cons, ← ih]
      cases hPop : pops x y with
      | false => rfl
      | true =>
          -- What `y` popped is popped by `x` as well.
          have hSkip : ∀ l : List P, (l.dropWhile (pops y)).find? (fun z => !pops x z) =
              l.find? fun z => !pops x z := by
            intro l
            induction l with
            | nil => rfl
            | cons z l ih =>
                cases hNext : pops y z with
                | false => rw [List.dropWhile_cons_of_neg (by simp [hNext])]
                | true =>
                    rw [List.dropWhile_cons_of_pos hNext, ih, List.find?_cons,
                      hTrans x y z hPop hNext]
                    rfl
          exact hSkip _

theorem head?_dropWhile_stack
    (hTrans : ∀ x y z, pops x y = true → pops y z = true → pops x z = true) (x : P)
    (history : List P) :
    ((stack pops history).dropWhile (pops x)).head? = history.find? fun y => !pops x y := by
  rw [← find?_stack hTrans, List.find?_not_eq_head?_dropWhile]

end Stack

section Minimum

variable {V : Type*} [LinearOrder V] {arr : Nat → V} {l r i j n : Nat}

/-- The first of the least elements from `l` to `r`. -/
structure FirstMin (arr : Nat → V) (l r i : Nat) : Prop where
  left : l ≤ i
  right : i ≤ r
  before : ∀ j, l ≤ j → j < i → arr i < arr j
  after : ∀ j, i < j → j ≤ r → arr i ≤ arr j

theorem FirstMin.le (h : FirstMin arr l r i) (hl : l ≤ j) (hr : j ≤ r) : arr i ≤ arr j := by
  rcases lt_trichotomy j i with hLt | rfl | hGt
  · exact (h.before j hl hLt).le
  · exact le_rfl
  · exact h.after j hGt hr

theorem FirstMin.unique (h : FirstMin arr l r i) (h' : FirstMin arr l r j) : i = j := by
  rcases lt_trichotomy i j with hLt | rfl | hGt
  · exact absurd (h'.before i h.left hLt) (h.le h'.left h'.right).not_gt
  · rfl
  · exact absurd (h.before j h'.left hGt) (h'.le h.left h.right).not_gt

theorem exists_firstMin (arr : Nat → V) (h : l ≤ r) : ∃ i, FirstMin arr l r i := by
  induction r, h using Nat.le_induction with
  | base =>
      exact ⟨l, le_rfl, le_rfl, fun j hl hj => absurd hj hl.not_gt,
        fun j hj hr => absurd hj hr.not_gt⟩
  | succ r hr ih =>
      obtain ⟨i, hMin⟩ := ih
      rcases lt_or_ge (arr (r + 1)) (arr i) with hLess | hKeep
      · refine ⟨r + 1, by omega, le_rfl, fun j hl hj => ?_, fun j hj hr => absurd hj hr.not_gt⟩
        exact lt_of_lt_of_le hLess (hMin.le hl (by omega))
      · refine ⟨i, hMin.left, by have := hMin.right; omega, hMin.before, fun j hj hr => ?_⟩
        rcases Nat.lt_succ_iff_lt_or_eq.mp (Nat.lt_succ_of_le hr) with hOld | rfl
        · exact hMin.after j hj (by omega)
        · exact hKeep

/-- The intervals whose first minimum is `i`: they start behind the last element that is not
greater and end in front of the first one that is less. -/
structure Extent (arr : Nat → V) (n lo i hi : Nat) : Prop where
  start : lo ≤ i
  stop : i < hi
  bound : hi ≤ n
  above : ∀ j, lo ≤ j → j < i → arr i < arr j
  below : ∀ j, i < j → j < hi → arr i ≤ arr j
  first : ∀ j, lo = j + 1 → arr j ≤ arr i
  last : hi < n → arr hi < arr i

theorem Extent.firstMin_iff {lo hi : Nat} (h : Extent arr n lo i hi) (hr : r < n) :
    FirstMin arr l r i ↔ (lo ≤ l ∧ l ≤ i) ∧ i ≤ r ∧ r < hi := by
  constructor
  · intro hMin
    refine ⟨⟨?_, hMin.left⟩, hMin.right, ?_⟩
    · by_contra hl
      obtain ⟨j, rfl⟩ : ∃ j, lo = j + 1 := ⟨lo - 1, by omega⟩
      have hStart := h.start
      exact absurd (hMin.before j (by omega) (by omega)) (h.first j rfl).not_gt
    · by_contra hr'
      have hStop := h.stop
      exact absurd (hMin.after hi hStop (by omega)) (h.last (by omega)).not_ge
  · rintro ⟨⟨hLo, hl⟩, hi, hHi⟩
    exact ⟨hl, hi, fun j hj => h.above j (by omega), fun j hj hjr => h.below j hj (by omega)⟩

theorem sum_range_ite {M : Type*} [AddCommMonoid M] {lo hi : Nat} (hn : hi ≤ n) (x : M) :
    (∑ i ∈ Finset.range n, if lo ≤ i ∧ i < hi then x else 0) = (hi - lo) • x := by
  have hFilter : (Finset.range n).filter (fun i => lo ≤ i ∧ i < hi) = Finset.Ico lo hi := by
    ext i
    simp only [Finset.mem_filter, Finset.mem_range, Finset.mem_Ico]
    omega
  rw [← Finset.sum_filter, hFilter, Finset.sum_const, Nat.card_Ico]

theorem sum_rectangle {M : Type*} [AddCommMonoid M] {lo mid start hi : Nat} (hMid : mid ≤ n)
    (hn : hi ≤ n) (x : M) :
    (∑ l ∈ Finset.range n, ∑ r ∈ Finset.range n,
      if (lo ≤ l ∧ l < mid) ∧ start ≤ r ∧ r < hi then x else 0) =
      ((mid - lo) * (hi - start)) • x := by
  have hRow : ∀ l, (∑ r ∈ Finset.range n,
      if (lo ≤ l ∧ l < mid) ∧ start ≤ r ∧ r < hi then x else 0) =
      if lo ≤ l ∧ l < mid then (hi - start) • x else 0 := by
    intro l
    by_cases hl : lo ≤ l ∧ l < mid
    · simp only [hl, true_and, and_self, if_true]
      exact sum_range_ite hn x
    · simp only [hl, false_and, if_false, Finset.sum_const_zero]
  simp only [hRow]
  rw [sum_range_ite hMid, mul_nsmul']

/-- An interval adds the element that is its first minimum. -/
theorem sum_firstMin {M : Type*} [AddCommMonoid M] {f : Nat → Nat → M} {g : Nat → M}
    {lo hi : Nat → Nat} (hf : ∀ l r i, r < n → FirstMin arr l r i → f l r = g i)
    (hExtent : ∀ i, i < n → Extent arr n (lo i) i (hi i)) (hr : r < n) :
    (∑ i ∈ Finset.range n, if (lo i ≤ l ∧ l < i + 1) ∧ i ≤ r ∧ r < hi i then g i else 0) =
      if l ≤ r then f l r else 0 := by
  have hIff : ∀ i ∈ Finset.range n,
      FirstMin arr l r i ↔ (lo i ≤ l ∧ l < i + 1) ∧ i ≤ r ∧ r < hi i := by
    intro i hi
    rw [Nat.lt_succ_iff]
    exact (hExtent i (Finset.mem_range.mp hi)).firstMin_iff hr
  split_ifs with hl
  · obtain ⟨i, hMin⟩ := exists_firstMin arr hl
    have hi : i ∈ Finset.range n := Finset.mem_range.mpr (lt_of_le_of_lt hMin.right hr)
    rw [Finset.sum_eq_single_of_mem i hi, if_pos ((hIff i hi).mp hMin), hf l r i hr hMin]
    intro j hj hOther
    exact if_neg fun h => hOther (((hIff j hj).mpr h).unique hMin)
  · refine Finset.sum_eq_zero fun i _ => if_neg fun h => hl ?_
    omega

/-- A sum over all intervals, by their first minimum. -/
theorem sum_intervals {M : Type*} [AddCommMonoid M] {f : Nat → Nat → M} {g : Nat → M}
    {lo hi : Nat → Nat} (hf : ∀ l r i, r < n → FirstMin arr l r i → f l r = g i)
    (hExtent : ∀ i, i < n → Extent arr n (lo i) i (hi i)) :
    ∑ l ∈ Finset.range n, ∑ r ∈ Finset.Ico l n, f l r =
      ∑ i ∈ Finset.range n, ((i + 1 - lo i) * (hi i - i)) • g i := by
  have hCells : ∀ l ∈ Finset.range n, ∑ r ∈ Finset.Ico l n, f l r =
      ∑ r ∈ Finset.range n, ∑ i ∈ Finset.range n,
        if (lo i ≤ l ∧ l < i + 1) ∧ i ≤ r ∧ r < hi i then g i else 0 := by
    intro l _
    have hFilter : (Finset.range n).filter (fun r => l ≤ r) = Finset.Ico l n := by
      ext r
      simp only [Finset.mem_filter, Finset.mem_range, Finset.mem_Ico]
      omega
    rw [← hFilter, Finset.sum_filter]
    exact Finset.sum_congr rfl fun r hr =>
      (sum_firstMin hf hExtent (Finset.mem_range.mp hr)).symm
  rw [Finset.sum_congr rfl hCells]
  calc ∑ l ∈ Finset.range n, ∑ r ∈ Finset.range n, ∑ i ∈ Finset.range n,
        (if (lo i ≤ l ∧ l < i + 1) ∧ i ≤ r ∧ r < hi i then g i else 0)
      = ∑ l ∈ Finset.range n, ∑ i ∈ Finset.range n, ∑ r ∈ Finset.range n,
        (if (lo i ≤ l ∧ l < i + 1) ∧ i ≤ r ∧ r < hi i then g i else 0) :=
        Finset.sum_congr rfl fun l _ => Finset.sum_comm
    _ = ∑ i ∈ Finset.range n, ∑ l ∈ Finset.range n, ∑ r ∈ Finset.range n,
        (if (lo i ≤ l ∧ l < i + 1) ∧ i ≤ r ∧ r < hi i then g i else 0) := Finset.sum_comm
    _ = ∑ i ∈ Finset.range n, ((i + 1 - lo i) * (hi i - i)) • g i :=
        Finset.sum_congr rfl fun i hMem => sum_rectangle
          (Nat.succ_le_of_lt (Finset.mem_range.mp hMem))
          (hExtent i (Finset.mem_range.mp hMem)).bound (g i)

end Minimum

end PopStack
