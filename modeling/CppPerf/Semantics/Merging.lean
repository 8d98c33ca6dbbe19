import Mathlib.Algebra.BigOperators.Group.List.Basic
import Mathlib.Algebra.Order.BigOperators.Group.List
import Mathlib.Algebra.Order.Monoid.Unbundled.Pow
import Mathlib.Tactic.Abel

/-! Merging piles that lie side by side, a fixed number of them at a time. -/
namespace Merging

variable {M : Type*} [AddCommMonoid M] {K p j : Nat} {c d : M} {l r q u v : List M}

/-- A sequence of merges, and the piles that are left. A merge costs the sum of its piles. -/
inductive Merges (K : Nat) : M → List M → List M → Prop where
  | done (l : List M) : Merges K 0 l l
  | merge {c : M} {q : List M} (u m v : List M) (hLength : m.length = K)
      (rest : Merges K c (u ++ m.sum :: v) q) : Merges K (m.sum + c) (u ++ m ++ v) q

/-- The stones lie in `p` piles, each a single stone or merged from `K` piles. -/
inductive Forest (K : Nat) : Nat → M → List M → Prop where
  | nil : Forest K 0 0 []
  | stone {p : Nat} {c : M} {r : List M} (x : M) (rest : Forest K p c r) :
      Forest K (p + 1) c (x :: r)
  | pile {p : Nat} {c d : M} {l r : List M} (inner : Forest K K c l) (rest : Forest K p d r) :
      Forest K (p + 1) (c + l.sum + d) (l ++ r)

section Sequences

theorem Merges.trans (h : Merges K c l q) (h' : Merges K d q r) : Merges K (c + d) l r := by
  induction h with
  | done l => rwa [zero_add]
  | merge u m v hLength rest ih =>
      rw [add_assoc]
      exact .merge u m v hLength (ih h')

theorem Merges.frame (h : Merges K c l q) (u v : List M) :
    Merges K c (u ++ l ++ v) (u ++ q ++ v) := by
  induction h with
  | done l => exact .done _
  | merge a m b hLength rest ih =>
      have hStep := Merges.merge (u ++ a) m (b ++ v) hLength (by simpa using ih)
      simpa using hStep

theorem Merges.sum_eq (h : Merges K c l q) : q.sum = l.sum := by
  induction h with
  | done l => rfl
  | merge u m v hLength rest ih =>
      rw [ih]
      simp

/-- Each merge leaves `K - 1` piles less. -/
theorem Merges.length_eq (hK : 1 ≤ K) (h : Merges K c l q) :
    ∃ j, l.length = q.length + j * (K - 1) := by
  induction h with
  | done l => exact ⟨0, by simp⟩
  | merge u m v hLength rest ih =>
      obtain ⟨j, hj⟩ := ih
      refine ⟨j + 1, ?_⟩
      rw [List.length_append, List.length_cons] at hj
      rw [List.length_append, List.length_append, hLength, Nat.succ_mul]
      omega

end Sequences

section Forests

theorem forest_stones (K : Nat) (l : List M) : Forest K l.length 0 l := by
  induction l with
  | nil => exact .nil
  | cons x l ih => exact .stone x ih

/-- The merges inside the piles can be done one pile after the other. -/
theorem Forest.merges (h : Forest K p c l) : ∃ q, q.length = p ∧ Merges K c l q := by
  induction h with
  | nil => exact ⟨[], rfl, .done []⟩
  | stone x rest ih =>
      obtain ⟨q, hLength, hMerges⟩ := ih
      exact ⟨x :: q, by rw [List.length_cons, hLength], by simpa using hMerges.frame [x] []⟩
  | @pile p c d l r inner rest ihInner ihRest =>
      obtain ⟨m, hm, hMerges⟩ := ihInner
      obtain ⟨q, hLength, hMerges'⟩ := ihRest
      have hInner := hMerges.frame [] r
      have hRest := hMerges'.frame [m.sum] []
      rw [List.append_nil, List.append_nil] at hRest
      have hMerge : Merges K (m.sum + d) ([] ++ m ++ r) ([m.sum] ++ q) :=
        .merge [] m r hm hRest
      have hAll := hInner.trans hMerge
      rw [hMerges.sum_eq, ← add_assoc] at hAll
      exact ⟨[l.sum] ++ q, by simp [hLength], by simpa using hAll⟩

/-- A stone that is itself the sum of `K` stones. -/
theorem Forest.expand {m : List M} (hm : m.length = K) (h : Forest K p c l)
    (hl : l = u ++ m.sum :: v) : Forest K p (c + m.sum) (u ++ m ++ v) := by
  induction h generalizing u v with
  | nil => exact absurd hl.symm (by simp)
  | @stone p c r x rest ih =>
      cases u with
      | nil =>
          obtain ⟨rfl, rfl⟩ := List.cons.inj hl
          have hStones := forest_stones K m
          rw [hm] at hStones
          have hPile := Forest.pile hStones rest
          rw [zero_add, add_comm m.sum] at hPile
          exact hPile
      | cons y u =>
          obtain ⟨rfl, hr⟩ := List.cons.inj hl
          exact .stone x (ih hr)
  | @pile p c d l r inner rest ihInner ihRest =>
      rcases List.append_eq_append_iff.mp hl with ⟨w, rfl, hr⟩ | ⟨w, hu, hw⟩
      · have hPile := Forest.pile inner (ihRest hr)
        rw [← add_assoc] at hPile
        simpa using hPile
      · cases w with
        | nil =>
            rw [List.append_nil] at hu
            have hPile := Forest.pile inner (ihRest (u := []) hw.symm)
            rw [← add_assoc] at hPile
            simpa [hu] using hPile
        | cons y w =>
            obtain ⟨rfl, rfl⟩ := List.cons.inj hw
            have hPile := Forest.pile (ihInner hu) rest
            have hSum : (u ++ m ++ w).sum = l.sum := by
              rw [hu]
              simp
            have hCost : c + m.sum + l.sum + d = c + l.sum + d + m.sum := by abel
            rw [hSum, hCost] at hPile
            simpa using hPile

theorem Merges.forest (h : Merges K c l q) : Forest K q.length c l := by
  induction h with
  | done l => exact forest_stones K l
  | merge u m v hLength rest ih =>
      rw [add_comm]
      exact ih.expand hLength rfl

/-- All merges can be regrouped by the piles that they end in. -/
theorem merges_iff : (∃ q, q.length = p ∧ Merges K c l q) ↔ Forest K p c l := by
  constructor
  · rintro ⟨q, rfl, h⟩
    exact h.forest
  · exact Forest.merges

theorem merges_one_iff : (∃ x, Merges K c l [x]) ↔ Forest K 1 c l := by
  rw [← merges_iff]
  constructor
  · rintro ⟨x, h⟩
    exact ⟨[x], rfl, h⟩
  · rintro ⟨q, hLength, h⟩
    obtain ⟨x, rfl⟩ := List.length_eq_one_iff.mp hLength
    exact ⟨x, h⟩

theorem forest_zero_iff : Forest K 0 c l ↔ l = [] ∧ c = 0 := by
  constructor
  · intro h
    cases h
    exact ⟨rfl, rfl⟩
  · rintro ⟨rfl, rfl⟩
    exact .nil

/-- The last merge is that of `K` piles. -/
theorem forest_one_iff :
    Forest K 1 c l ↔ (∃ x, l = [x] ∧ c = 0) ∨ ∃ d, Forest K K d l ∧ c = d + l.sum := by
  constructor
  · intro h
    cases h with
    | stone x rest =>
        obtain ⟨rfl, rfl⟩ := forest_zero_iff.mp rest
        exact Or.inl ⟨x, rfl, rfl⟩
    | pile inner rest =>
        obtain ⟨rfl, rfl⟩ := forest_zero_iff.mp rest
        rw [List.append_nil, add_zero]
        exact Or.inr ⟨_, inner, rfl⟩
  · rintro (⟨x, rfl, rfl⟩ | ⟨d, h, rfl⟩)
    · exact .stone x .nil
    · have hPile := Forest.pile h .nil
      rwa [List.append_nil, add_zero] at hPile

/-- The first pile, and the others. -/
theorem forest_succ_iff : Forest K (p + 1) c l ↔
    ∃ l₁ l₂ c₁ c₂, l = l₁ ++ l₂ ∧ c = c₁ + c₂ ∧ Forest K 1 c₁ l₁ ∧ Forest K p c₂ l₂ := by
  constructor
  · intro h
    cases h with
    | stone x rest => exact ⟨[x], _, 0, _, rfl, (zero_add _).symm, .stone x .nil, rest⟩
    | @pile _ c d l r inner rest =>
        exact ⟨l, r, _, d, rfl, rfl, forest_one_iff.mpr (Or.inr ⟨c, inner, rfl⟩), rest⟩
  · rintro ⟨l₁, l₂, c₁, c₂, rfl, rfl, hFirst, hRest⟩
    rcases forest_one_iff.mp hFirst with ⟨x, rfl, rfl⟩ | ⟨d, hInner, rfl⟩
    · rw [zero_add]
      exact .stone x hRest
    · exact .pile hInner hRest

end Forests

section Counting

variable (hK : 2 ≤ K)

include hK

/-- As many stones can be merged into `p` piles as are left over by whole merges. -/
theorem exists_merges (hp : 1 ≤ p) (j : Nat) (hLength : l.length = p + j * (K - 1)) :
    ∃ c q, Merges K c l q ∧ q.length = p := by
  induction j generalizing l with
  | zero => exact ⟨0, l, .done l, by omega⟩
  | succ j ih =>
      rw [Nat.succ_mul] at hLength
      have hFirst : (l.take K).length = K := List.length_take_of_le (by omega)
      obtain ⟨c, q, hMerges, hq⟩ := ih (l := (l.take K).sum :: l.drop K) (by
        rw [List.length_cons, List.length_drop]
        omega)
      have hStep := Merges.merge [] (l.take K) (l.drop K) hFirst hMerges
      rw [List.nil_append, List.take_append_drop] at hStep
      exact ⟨_, q, hStep, hq⟩

theorem exists_forest_iff (hp : 1 ≤ p) :
    (∃ c, Forest K p c l) ↔ p ≤ l.length ∧ (l.length - p) % (K - 1) = 0 := by
  constructor
  · rintro ⟨c, h⟩
    obtain ⟨q, rfl, hMerges⟩ := h.merges
    obtain ⟨j, hj⟩ := hMerges.length_eq (by omega)
    rw [hj, Nat.add_sub_cancel_left]
    exact ⟨Nat.le_add_right _ _, Nat.mul_mod_left _ _⟩
  · rintro ⟨hLe, hMod⟩
    obtain ⟨j, hj⟩ := Nat.dvd_of_mod_eq_zero hMod
    rw [Nat.mul_comm] at hj
    obtain ⟨c, q, hMerges, rfl⟩ := exists_merges hK hp j (show l.length = p + j * (K - 1) by omega)
    exact ⟨c, hMerges.forest⟩

theorem Forest.le_length (hp : 1 ≤ p) (h : Forest K p c l) : p ≤ l.length :=
  ((exists_forest_iff hK hp).mp ⟨c, h⟩).1

/-- Too few stones for a merge. -/
theorem Forest.eq_zero (h : Forest K p c l) (hp : l.length = p) : c = 0 := by
  obtain ⟨q, hq, hMerges⟩ := h.merges
  cases hMerges with
  | done l => rfl
  | merge u m v hLength rest =>
      obtain ⟨j, hj⟩ := rest.length_eq (by omega)
      rw [List.length_append, List.length_append, hLength] at hp
      rw [List.length_append, List.length_cons, hq] at hj
      omega

end Counting

section Costs

variable [PartialOrder M] [IsOrderedAddMonoid M] (hK : 2 ≤ K)

omit [IsOrderedAddMonoid M] in
theorem nonneg_of_mem {m : List M} (h : ∀ x ∈ u ++ m ++ v, 0 ≤ x) :
    (∀ x ∈ u, 0 ≤ x) ∧ (∀ x ∈ m, 0 ≤ x) ∧ ∀ x ∈ v, 0 ≤ x := by
  simp only [List.mem_append] at h
  exact ⟨fun x hx => h x (Or.inl (Or.inl hx)), fun x hx => h x (Or.inl (Or.inr hx)),
    fun x hx => h x (Or.inr hx)⟩

theorem nonneg_merge {m : List M} (h : ∀ x ∈ u ++ m ++ v, 0 ≤ x) :
    ∀ x ∈ u ++ m.sum :: v, 0 ≤ x := by
  obtain ⟨hu, hm, hv⟩ := nonneg_of_mem h
  intro x hx
  rcases List.mem_append.mp hx with hLeft | hRest
  · exact hu x hLeft
  · rcases List.mem_cons.mp hRest with rfl | hRight
    · exact List.sum_nonneg hm
    · exact hv x hRight

theorem Merges.nonneg (h : Merges K c l q) (hl : ∀ x ∈ l, 0 ≤ x) : 0 ≤ c ∧ ∀ x ∈ q, 0 ≤ x := by
  induction h with
  | done l => exact ⟨le_rfl, hl⟩
  | merge u m v hLength rest ih =>
      obtain ⟨hCost, hq⟩ := ih (nonneg_merge hl)
      exact ⟨add_nonneg (List.sum_nonneg (nonneg_of_mem hl).2.1) hCost, hq⟩

include hK

/-- A merge costs the sum of all stones at most, and leaves one pile less at least. -/
theorem Merges.cost_le (h : Merges K c l q) (hl : ∀ x ∈ l, 0 ≤ x) :
    c + q.length • l.sum ≤ l.length • l.sum := by
  induction h with
  | done l => rw [zero_add]
  | @merge c q u m v hLength rest ih =>
      obtain ⟨hu, -, hv⟩ := nonneg_of_mem hl
      have hRest := ih (nonneg_merge hl)
      have hSum : (u ++ m.sum :: v).sum = (u ++ m ++ v).sum := by simp
      have hTotal : 0 ≤ (u ++ m ++ v).sum := List.sum_nonneg hl
      have hMerge : m.sum ≤ (u ++ m ++ v).sum := by
        rw [List.sum_append, List.sum_append]
        exact le_add_of_le_of_nonneg (le_add_of_nonneg_left (List.sum_nonneg hu))
          (List.sum_nonneg hv)
      have hFewer : (u ++ m.sum :: v).length + 1 ≤ (u ++ m ++ v).length := by
        simp only [List.length_append, List.length_cons]
        omega
      rw [hSum] at hRest
      calc m.sum + c + q.length • (u ++ m ++ v).sum
          = m.sum + (c + q.length • (u ++ m ++ v).sum) := add_assoc _ _ _
        _ ≤ (u ++ m ++ v).sum + (u ++ m.sum :: v).length • (u ++ m ++ v).sum :=
            add_le_add hMerge hRest
        _ = ((u ++ m.sum :: v).length + 1) • (u ++ m ++ v).sum := (succ_nsmul' _ _).symm
        _ ≤ (u ++ m ++ v).length • (u ++ m ++ v).sum := nsmul_le_nsmul_left hTotal hFewer

/-- Merging all piles costs their sum at least. -/
theorem exists_merges_of_sum_le (j : Nat) (hLength : l.length = 1 + (j + 1) * (K - 1))
    (hl : ∀ x ∈ l, 0 ≤ x) : ∃ c x, Merges K c l [x] ∧ l.sum ≤ c := by
  induction j generalizing l with
  | zero =>
      have hAll : Merges K (l.sum + 0) ([] ++ l ++ []) [l.sum] :=
        .merge [] l [] (by omega) (.done [l.sum])
      rw [List.nil_append, List.append_nil, add_zero] at hAll
      exact ⟨_, _, hAll, le_rfl⟩
  | succ j ih =>
      rw [Nat.succ_mul] at hLength
      have hFirst : (l.take K).length = K := List.length_take_of_le (by omega)
      have hTake : 0 ≤ (l.take K).sum :=
        List.sum_nonneg fun x hx => hl x (List.mem_of_mem_take hx)
      obtain ⟨c, x, hMerges, hLe⟩ := ih (l := (l.take K).sum :: l.drop K) (by
          rw [List.length_cons, List.length_drop]
          omega) (fun x hx => by
          rcases List.mem_cons.mp hx with rfl | hDrop
          · exact hTake
          · exact hl x (List.mem_of_mem_drop hDrop))
      have hStep := Merges.merge [] (l.take K) (l.drop K) hFirst hMerges
      rw [List.nil_append, List.take_append_drop] at hStep
      rw [List.sum_cons, List.sum_take_add_sum_drop] at hLe
      exact ⟨_, x, hStep, hLe.trans (le_add_of_nonneg_left hTake)⟩

/-- Piles in the middle, unless they are the one pile at the end, have to be merged on. All that
costs at least what they have cost and their sum. -/
theorem Forest.exists_merges_le (h : Forest K p c l) (hAll : ∀ x ∈ u ++ l ++ v, 0 ≤ x)
    (hCount : ((u ++ l ++ v).length - 1) % (K - 1) = 0) (hp : 1 ≤ p)
    (hMore : p ≠ 1 ∨ l.length < (u ++ l ++ v).length) :
    ∃ d x, Merges K d (u ++ l ++ v) [x] ∧ c + l.sum ≤ d := by
  obtain ⟨q, hq, hMerges⟩ := h.merges
  have hFrame := hMerges.frame u v
  obtain ⟨-, hNonneg⟩ := hFrame.nonneg hAll
  obtain ⟨j, hj⟩ := hFrame.length_eq (by omega)
  obtain ⟨i, hi⟩ := Nat.dvd_of_mod_eq_zero hCount
  rw [Nat.mul_comm] at hi
  have hPiles : 2 ≤ (u ++ q ++ v).length := by
    simp only [List.length_append] at hMore hq ⊢
    omega
  obtain ⟨k, hk⟩ : ∃ k, i = j + (k + 1) := by
    refine ⟨i - j - 1, ?_⟩
    by_contra hLess
    have hMul : i * (K - 1) ≤ j * (K - 1) := Nat.mul_le_mul_right _ (by omega)
    omega
  rw [hk, Nat.add_mul] at hi
  obtain ⟨d, x, hRest, hLe⟩ := exists_merges_of_sum_le hK k (by omega) hNonneg
  refine ⟨c + d, x, hFrame.trans hRest, add_le_add_right (le_trans ?_ hLe) c⟩
  rw [List.sum_append, List.sum_append, hMerges.sum_eq]
  obtain ⟨hu, -, hv⟩ := nonneg_of_mem hAll
  exact (le_add_of_nonneg_left (List.sum_nonneg hu)).trans
    (le_add_of_nonneg_right (List.sum_nonneg hv))

end Costs

end Merging
