import Mathlib.Algebra.Order.BigOperators.Group.Multiset
import Mathlib.Algebra.Order.Group.Unbundled.Basic
import Mathlib.Data.Multiset.AddSub
import Mathlib.Logic.Relation
import Mathlib.Order.Bounds.Basic
import Mathlib.Tactic.Abel

/-! Stones that are smashed two at a time until at most one is left. The least weight that can be
left is the least difference of two groups of the stones. -/
namespace Smashing

open Relation

variable {M : Type*} [AddCommGroup M] [LinearOrder M] {s t : Multiset M} {d w : M}

/-- Equal stones are destroyed. Of two others the difference is left. -/
inductive Smash : Multiset M → Multiset M → Prop where
  | destroy (x : M) (rest : Multiset M) : Smash (x ::ₘ x ::ₘ rest) rest
  | crack {x y : M} (rest : Multiset M) (h : x < y) :
      Smash (x ::ₘ y ::ₘ rest) ((y - x) ::ₘ rest)

/-- What can be left in the end: the weight of the last stone, or 0. -/
def Outcomes (s : Multiset M) : Set M :=
  {w | ∃ last, ReflTransGen Smash s last ∧ (last = {w} ∨ last = 0 ∧ w = 0)}

/-- The stones can be put into two groups with this difference. -/
def Balance (s : Multiset M) (d : M) : Prop :=
  ∃ left right, s = left + right ∧ d = left.sum - right.sum

theorem Smash.card_lt (h : Smash s t) : t.card < s.card := by
  cases h with
  | destroy x rest =>
      rw [Multiset.card_cons, Multiset.card_cons]
      omega
  | crack rest hLt =>
      rw [Multiset.card_cons, Multiset.card_cons, Multiset.card_cons]
      omega

theorem Smash.outcome (h : Smash s t) (hw : w ∈ Outcomes t) : w ∈ Outcomes s := by
  obtain ⟨last, hRun, hLast⟩ := hw
  exact ⟨last, .head h hRun, hLast⟩

/-- A stone that is left stands for two stones in different groups. -/
theorem Smash.balance (h : Smash s t) (hBalance : Balance t d) : Balance s d := by
  obtain ⟨left, right, hGroups, rfl⟩ := hBalance
  cases h with
  | destroy x rest =>
      subst hGroups
      refine ⟨x ::ₘ left, x ::ₘ right, by simp, ?_⟩
      rw [Multiset.sum_cons, Multiset.sum_cons, add_sub_add_left_eq_sub]
  | @crack x y rest hLt =>
      have hMem : y - x ∈ left + right := hGroups ▸ Multiset.mem_cons_self _ _
      rcases Multiset.mem_add.mp hMem with hLeft | hRight
      · obtain ⟨left, rfl⟩ := Multiset.exists_cons_of_mem hLeft
        rw [Multiset.cons_add, Multiset.cons_inj_right] at hGroups
        refine ⟨y ::ₘ left, x ::ₘ right, ?_, ?_⟩
        · rw [hGroups, Multiset.cons_add, Multiset.add_cons, Multiset.cons_swap]
        · simp only [Multiset.sum_cons]
          abel
      · obtain ⟨right, rfl⟩ := Multiset.exists_cons_of_mem hRight
        rw [Multiset.add_cons, Multiset.cons_inj_right] at hGroups
        refine ⟨x ::ₘ left, y ::ₘ right, ?_, ?_⟩
        · rw [hGroups, Multiset.cons_add, Multiset.add_cons]
        · simp only [Multiset.sum_cons]
          abel

/-- A stone of each group is smashed, and the difference of the groups stays the same. -/
theorem exists_smash (l r : M) (left right : Multiset M) :
    ∃ t, Smash (l ::ₘ r ::ₘ (left + right)) t ∧
      Balance t ((l ::ₘ left).sum - (r ::ₘ right).sum) := by
  rcases lt_trichotomy l r with hLess | rfl | hMore
  · refine ⟨_, .crack _ hLess, left, (r - l) ::ₘ right, by simp, ?_⟩
    simp only [Multiset.sum_cons]
    abel
  · refine ⟨_, .destroy l _, left, right, rfl, ?_⟩
    rw [Multiset.sum_cons, Multiset.sum_cons, add_sub_add_left_eq_sub]
  · rw [Multiset.cons_swap]
    refine ⟨_, .crack _ hMore, (l - r) ::ₘ left, right, by simp, ?_⟩
    simp only [Multiset.sum_cons]
    abel

variable [IsOrderedAddMonoid M]

theorem Smash.pos (h : Smash s t) (hPos : ∀ x ∈ s, 0 < x) : ∀ x ∈ t, 0 < x := by
  cases h with
  | destroy x rest => exact fun z hz => hPos z (by simp [hz])
  | crack rest hLt =>
      intro z hz
      rcases Multiset.mem_cons.mp hz with rfl | hRest
      · exact sub_pos.mpr hLt
      · exact hPos z (by simp [hRest])

omit [AddCommGroup M] [IsOrderedAddMonoid M] in
theorem exists_cons_cons (hMore : 1 < s.card) : ∃ x y rest, s = x ::ₘ y ::ₘ rest ∧ y ≤ x := by
  obtain ⟨x, hx⟩ := Multiset.card_pos_iff_exists_mem.mp (Nat.zero_lt_of_lt hMore)
  obtain ⟨s, rfl⟩ := Multiset.exists_cons_of_mem hx
  rw [Multiset.card_cons] at hMore
  obtain ⟨y, hy⟩ := Multiset.card_pos_iff_exists_mem.mp (Nat.lt_of_succ_lt_succ hMore)
  obtain ⟨rest, rfl⟩ := Multiset.exists_cons_of_mem hy
  rcases le_total y x with hLe | hLe
  · exact ⟨x, y, rest, rfl, hLe⟩
  · exact ⟨y, x, rest, Multiset.cons_swap x y rest, hLe⟩

/-- Two stones of one group are smashed while the other group is empty. -/
theorem exists_smash_single (hPos : ∀ x ∈ s, 0 < x) (hMore : 1 < s.card) :
    ∃ t d, Smash s t ∧ Balance t d ∧ 0 ≤ d ∧ d ≤ s.sum := by
  obtain ⟨x, y, rest, rfl, hLe⟩ := exists_cons_cons hMore
  obtain ⟨t, hSmash, hBalance⟩ := exists_smash x y rest 0
  have hy := hPos y (by simp)
  have hRest : 0 ≤ rest.sum := Multiset.sum_nonneg fun z hz => (hPos z (by simp [hz])).le
  rw [Multiset.add_zero] at hSmash
  refine ⟨t, _, hSmash, hBalance, ?_, ?_⟩
  · rw [Multiset.sum_cons, Multiset.sum_cons, Multiset.sum_zero, add_zero]
    exact sub_nonneg.mpr (hLe.trans (le_add_of_nonneg_right hRest))
  · simp only [Multiset.sum_cons, Multiset.sum_zero, add_zero]
    rw [sub_le_iff_le_add]
    have hTwice : x + (y + rest.sum) + y = x + rest.sum + (y + y) := by abel
    rw [hTwice]
    exact le_add_of_nonneg_right (add_nonneg hy.le hy.le)

/-- While there are two stones, a pair can be smashed without making the difference larger. -/
theorem exists_smash_balance (hPos : ∀ x ∈ s, 0 < x) (hMore : 1 < s.card) (hd : 0 ≤ d)
    (h : Balance s d) : ∃ t d', Smash s t ∧ Balance t d' ∧ 0 ≤ d' ∧ d' ≤ d := by
  obtain ⟨left, right, rfl, rfl⟩ := h
  rcases right.empty_or_exists_mem with rfl | ⟨r, hr⟩
  · rw [Multiset.add_zero] at hPos hMore ⊢
    rw [Multiset.sum_zero, sub_zero]
    exact exists_smash_single hPos hMore
  · obtain ⟨right, rfl⟩ := Multiset.exists_cons_of_mem hr
    rcases left.empty_or_exists_mem with rfl | ⟨l, hl⟩
    · have hRight : 0 ≤ right.sum := Multiset.sum_nonneg fun x hx => (hPos x (by simp [hx])).le
      rw [Multiset.sum_zero, zero_sub, Multiset.sum_cons, neg_nonneg] at hd
      exact absurd hd (not_le_of_gt (add_pos_of_pos_of_nonneg (hPos r (by simp)) hRight))
    · obtain ⟨left, rfl⟩ := Multiset.exists_cons_of_mem hl
      obtain ⟨t, hSmash, hBalance⟩ := exists_smash l r left right
      refine ⟨t, _, ?_, hBalance, hd, le_rfl⟩
      rwa [Multiset.cons_add, Multiset.add_cons]

omit [IsOrderedAddMonoid M] in
/-- A single stone, or none, is what is left. -/
theorem sum_outcome (hFew : s.card ≤ 1) : s.sum ∈ Outcomes s := by
  rcases Nat.le_one_iff_eq_zero_or_eq_one.mp hFew with hNone | hOne
  · rw [Multiset.card_eq_zero.mp hNone]
    exact ⟨0, .refl, Or.inr ⟨rfl, Multiset.sum_zero⟩⟩
  · obtain ⟨x, rfl⟩ := Multiset.card_eq_one.mp hOne
    exact ⟨{x}, .refl, Or.inl (by rw [Multiset.sum_singleton])⟩

theorem eq_sum_of_balance (hPos : ∀ x ∈ s, 0 < x) (hFew : s.card ≤ 1) (hd : 0 ≤ d)
    (h : Balance s d) : d = s.sum := by
  obtain ⟨left, right, rfl, rfl⟩ := h
  rcases right.empty_or_exists_mem with rfl | ⟨r, hr⟩
  · rw [Multiset.add_zero, Multiset.sum_zero, sub_zero]
  · obtain ⟨right, rfl⟩ := Multiset.exists_cons_of_mem hr
    rw [Multiset.card_add, Multiset.card_cons] at hFew
    have hLeft := Multiset.card_eq_zero.mp (show left.card = 0 by omega)
    have hRight := Multiset.card_eq_zero.mp (show right.card = 0 by omega)
    subst hLeft hRight
    rw [Multiset.sum_zero, zero_sub, Multiset.sum_cons, Multiset.sum_zero, add_zero,
      neg_nonneg] at hd
    exact absurd hd (not_le_of_gt (hPos r (by simp)))

theorem exists_outcome_le (hPos : ∀ x ∈ s, 0 < x) (hd : 0 ≤ d) (h : Balance s d) :
    ∃ w ∈ Outcomes s, w ≤ d := by
  induction hn : s.card using Nat.strongRecOn generalizing s d with
  | ind n ih =>
      rcases Nat.lt_or_ge 1 s.card with hMore | hFew
      · obtain ⟨t, d', hSmash, hBalance, hd', hLe⟩ := exists_smash_balance hPos hMore hd h
        obtain ⟨w, hw, hwLe⟩ := ih _ (hn ▸ hSmash.card_lt) (hSmash.pos hPos) hd' hBalance rfl
        exact ⟨w, hSmash.outcome hw, hwLe.trans hLe⟩
      · exact ⟨s.sum, sum_outcome hFew, (eq_sum_of_balance hPos hFew hd h).ge⟩

/-- Whatever is left is a difference of two groups. -/
theorem balance_of_outcome (hPos : ∀ x ∈ s, 0 < x) (hw : w ∈ Outcomes s) :
    Balance s w ∧ 0 ≤ w := by
  obtain ⟨last, hRun, hLast⟩ := hw
  induction hRun using ReflTransGen.head_induction_on with
  | refl =>
      rcases hLast with rfl | ⟨rfl, rfl⟩
      · exact ⟨⟨{w}, 0, by simp, by simp⟩, (hPos w (by simp)).le⟩
      · exact ⟨⟨0, 0, by simp, by simp⟩, le_rfl⟩
  | head hSmash _ ih =>
      obtain ⟨hBalance, hNonneg⟩ := ih (hSmash.pos hPos)
      exact ⟨hSmash.balance hBalance, hNonneg⟩

/-- The best two groups can be smashed down to their difference. -/
theorem isLeast_outcomes (hPos : ∀ x ∈ s, 0 < x) (hd : 0 ≤ d) (h : Balance s d)
    (hLeast : ∀ d', 0 ≤ d' → Balance s d' → d ≤ d') : IsLeast (Outcomes s) d := by
  have hLower : ∀ w ∈ Outcomes s, d ≤ w := fun w hw => by
    obtain ⟨hBalance, hNonneg⟩ := balance_of_outcome hPos hw
    exact hLeast w hNonneg hBalance
  obtain ⟨w, hw, hLe⟩ := exists_outcome_le hPos hd h
  rw [le_antisymm hLe (hLower w hw)] at hw
  exact ⟨hw, hLower⟩

end Smashing
