import Mathlib.Algebra.Order.Group.Nat
import Mathlib.Data.Finset.Max
import Mathlib.Data.List.Count

/-! Multisets that consist of pairs of an element and its partner, where no partner is below
its element. A multiset is given by how often each element occurs. -/
namespace Pairing

open scoped List

variable {α : Type*} [LinearOrder α] {g : α → α} {f : α → Nat} {a v : α} {n : Nat}
  {xs ys : List α}

/-- How often an element occurs among the elements of a list and their partners. -/
def tally (g : α → α) (xs : List α) (v : α) : Nat := xs.count v + (xs.map g).count v

/-- The multiset consists of the elements of the list and their partners. -/
def IsPairing (g : α → α) (xs : List α) (f : α → Nat) : Prop := ∀ v, f v = tally g xs v

theorem tally_append : tally g (xs ++ ys) v = tally g xs v + tally g ys v := by
  simp only [tally, List.map_append, List.count_append]
  omega

theorem tally_replicate :
    tally g (List.replicate n a) v = (if v = a then n else 0) + if v = g a then n else 0 := by
  simp only [tally, List.map_replicate, List.count_replicate, beq_iff_eq, @eq_comm _ v]

theorem tally_perm (h : xs.Perm ys) : tally g xs v = tally g ys v := by
  rw [tally, tally, h.count_eq, (h.map g).count_eq]

/-- An element apart from the others. -/
theorem perm_replicate (xs : List α) (a : α) :
    xs.Perm (List.replicate (xs.count a) a ++ xs.filter (· ≠ a)) := by
  rw [List.perm_iff_count]
  intro b
  rw [List.count_append, List.count_replicate]
  by_cases hSame : b = a
  · simp [hSame, List.count_eq_zero]
  · rw [List.count_filter (by simpa using hSame)]
    simp [Ne.symm hSame]

theorem IsPairing.split (h : IsPairing g xs f) (a v : α) :
    f v = (if v = a then xs.count a else 0) + (if v = g a then xs.count a else 0) +
      tally g (xs.filter (· ≠ a)) v := by
  rw [h v, tally_perm (perm_replicate xs a), tally_append, tally_replicate]

theorem IsPairing.mem_le (h : IsPairing g xs f) (hMin : ∀ v, f v ≠ 0 → a ≤ v) :
    ∀ x ∈ xs, a ≤ x := by
  intro x hx
  apply hMin
  have hCount := List.count_pos_iff.mpr hx
  rw [h x, tally]
  omega

section Least

variable (hUp : ∀ x, x ≤ g x) (hMin : ∀ v, f v ≠ 0 → a ≤ v)
include hUp hMin

/-- The least element is no partner of another one. -/
theorem IsPairing.tally_filter_eq_zero (h : IsPairing g xs f) :
    tally g (xs.filter (· ≠ a)) a = 0 := by
  rw [tally, Nat.add_eq_zero_iff, List.count_eq_zero, List.count_eq_zero]
  refine ⟨by simp, fun hMem => ?_⟩
  obtain ⟨x, hx, hEq⟩ := List.mem_map.mp hMem
  obtain ⟨hx, hNe⟩ := List.mem_filter.mp hx
  have hSame : x = a := le_antisymm (hEq ▸ hUp x) (h.mem_le hMin x hx)
  simp [hSame] at hNe

theorem IsPairing.count_eq (h : IsPairing g xs f) :
    f a = if g a = a then 2 * xs.count a else xs.count a := by
  rw [h.split a a, h.tally_filter_eq_zero hUp hMin, if_pos rfl]
  split_ifs with hSame hFixed hFixed
  · omega
  · exact absurd hSame.symm hFixed
  · exact absurd hFixed.symm hSame
  · omega

/-- The least element goes with its partner. -/
theorem exists_isPairing_iff (hLt : a < g a) :
    (∃ xs, IsPairing g xs f) ↔ f a ≤ f (g a) ∧
      ∃ xs, IsPairing g xs fun v =>
        if v = a then 0 else if v = g a then f v - f a else f v := by
  constructor
  · rintro ⟨xs, h⟩
    have hCount := h.count_eq hUp hMin
    have hSplit := h.split a
    rw [if_neg hLt.ne'] at hCount
    rw [← hCount] at hSplit
    constructor
    · have hPartner := hSplit (g a)
      rw [if_neg hLt.ne', if_pos rfl] at hPartner
      omega
    · refine ⟨xs.filter (· ≠ a), fun v => ?_⟩
      have hv := hSplit v
      dsimp only
      split_ifs with hSame hPartner
      · rw [hSame, h.tally_filter_eq_zero hUp hMin]
      · rw [if_neg hSame, if_pos hPartner] at hv
        omega
      · rw [if_neg hSame, if_neg hPartner] at hv
        omega
  · rintro ⟨hLe, xs, h⟩
    refine ⟨List.replicate (f a) a ++ xs, fun v => ?_⟩
    rw [tally_append, tally_replicate, ← h v]
    dsimp only
    split_ifs with hSame hPartner hPartner
    · exact absurd (hSame ▸ hPartner) hLt.ne
    · rw [hSame, Nat.add_zero]
    · rw [← hPartner] at hLe
      omega
    · omega

/-- A least element that is its own partner. -/
theorem exists_isPairing_iff_of_fixed (hFixed : g a = a) :
    (∃ xs, IsPairing g xs f) ↔ f a % 2 = 0 ∧
      ∃ xs, IsPairing g xs fun v => if v = a then 0 else f v := by
  constructor
  · rintro ⟨xs, h⟩
    have hCount := h.count_eq hUp hMin
    rw [if_pos hFixed] at hCount
    refine ⟨by omega, xs.filter (· ≠ a), fun v => ?_⟩
    have hv := h.split a v
    rw [hFixed] at hv
    dsimp only
    split_ifs with hSame
    · rw [hSame, h.tally_filter_eq_zero hUp hMin]
    · rw [if_neg hSame] at hv
      omega
  · rintro ⟨hEven, xs, h⟩
    refine ⟨List.replicate (f a / 2) a ++ xs, fun v => ?_⟩
    rw [tally_append, tally_replicate, ← h v, hFixed]
    dsimp only
    split_ifs with hSame
    · rw [hSame]
      omega
    · omega

end Least

/-- The least of the elements that go with their partners. -/
theorem IsPairing.exists_least (hUp : ∀ x, x ≤ g x) (h : IsPairing g xs f) (hNe : xs ≠ []) :
    ∃ a ∈ xs, ∀ v, f v ≠ 0 → a ≤ v := by
  obtain ⟨a, ha, hLe⟩ := xs.toFinset.exists_min_image id (List.toFinset_nonempty_iff xs |>.mpr hNe)
  rw [List.mem_toFinset] at ha
  refine ⟨a, ha, fun v hv => ?_⟩
  rw [h v, tally, Ne, Nat.add_eq_zero_iff, not_and_or, List.count_eq_zero, List.count_eq_zero,
    not_not, not_not] at hv
  rcases hv with hv | hv
  · exact hLe v (List.mem_toFinset.mpr hv)
  · obtain ⟨x, hx, rfl⟩ := List.mem_map.mp hv
    exact (hLe x (List.mem_toFinset.mpr hx)).trans (hUp x)

/-- The elements that go with their partners are determined. -/
theorem IsPairing.perm (hUp : ∀ x, x ≤ g x) (h : IsPairing g xs f) (h' : IsPairing g ys f) :
    xs.Perm ys := by
  induction hLength : xs.length using Nat.strongRecOn generalizing xs ys f with
  | ind k ih =>
      by_cases hNe : xs = []
      · rw [hNe] at h ⊢
        cases ys with
        | nil => exact List.Perm.nil
        | cons y ys =>
            have hCount := (h y).symm.trans (h' y)
            simp only [tally, List.map_nil, List.count_nil, List.count_cons_self] at hCount
            omega
      · obtain ⟨a, ha, hMin⟩ := h.exists_least hUp hNe
        have hCount : xs.count a = ys.count a := by
          have hEq := (h.count_eq hUp hMin).symm.trans (h'.count_eq hUp hMin)
          split_ifs at hEq <;> omega
        have hRest : IsPairing g (ys.filter (· ≠ a)) (tally g (xs.filter (· ≠ a))) := by
          intro v
          have hSplit := (h.split a v).symm.trans (h'.split a v)
          rw [hCount] at hSplit
          omega
        have hShorter : (xs.filter (· ≠ a)).length < k := by
          rw [← hLength]
          exact List.length_filter_lt_length_iff_exists.mpr ⟨a, ha, by simp⟩
        have hPerm := ih _ hShorter (fun _ => rfl) hRest rfl
        calc xs
          _ ~ List.replicate (xs.count a) a ++ xs.filter (· ≠ a) := perm_replicate xs a
          _ ~ List.replicate (ys.count a) a ++ ys.filter (· ≠ a) := by
            rw [hCount]
            exact hPerm.append_left _
          _ ~ ys := (perm_replicate ys a).symm

theorem count_flatMap_pair {β : Type*} (p q : β → α) (l : List β) (v : α) :
    (l.flatMap fun b => [p b, q b]).count v = (l.map p).count v + (l.map q).count v := by
  induction l with
  | nil => rfl
  | cons b l ih =>
      simp only [List.flatMap_cons, List.count_append, ih, List.map_cons, List.count_cons,
        List.count_nil]
      omega

theorem isPairing_iff_perm {l : List α} :
    IsPairing g xs (fun v => l.count v) ↔ l.Perm (xs.flatMap fun x => [x, g x]) := by
  rw [List.perm_iff_count]
  apply forall_congr'
  intro v
  rw [count_flatMap_pair, List.map_id']
  exact Iff.rfl

end Pairing
