import CppPerf.Arrays.PartialSum
import CppPerf.Semantics.Smashing
import Mathlib.Algebra.BigOperators.Group.Multiset.Basic
import Mathlib.Logic.Function.Basic

/-! `lastStoneWeightII` of `knapsack.cpp`, which looks for a half of the stones. -/
namespace CppPerf.Knapsack

open Text Arrays Smashing

/-- The loop over `w`. -/
def add_stone (size : Nat) (sack_memo : Nat → Bool) (s : Int) : Nat → Bool :=
  (List.range' s.toNat (size - s.toNat)).reverse.foldl
    (fun sack_memo w =>
      Function.update sack_memo w (sack_memo w || sack_memo (w - s.toNat))) sack_memo

/-- The loop that looks for the largest sum that is not above a half. -/
def best_half (weights : Int) (sack_memo : Nat → Bool) : (w : Nat) → Int
  | 0 => if sack_memo 0 then weights else 0
  | w + 1 =>
      if sack_memo (w + 1) then weights - (w + 1) - (w + 1)
      else best_half weights sack_memo w

/-- A vector without an element 0 is a failure. -/
def lastStoneWeightII (stones : List Int) : Option Int :=
  let weights := accumulate stones
  let size := weights.tdiv 2 + 1
  if size ≤ 0 then none
  else
    let sack_memo := stones.foldl (add_stone size.toNat) fun w => w = 0
    some (best_half weights sack_memo (weights.tdiv 2).toNat)

section Loops

variable {sack_memo : Nat → Bool} {size w : Nat} {s : Int}

/-- From the largest weight down, no stone is used twice. -/
theorem add_stone_eq (hs : 0 < s) (w : Nat) : add_stone size sack_memo s w =
    if s ≤ w ∧ w < size then sack_memo w || sack_memo (w - s.toNat) else sack_memo w := by
  obtain ⟨k, rfl⟩ : ∃ k : Nat, s = k := ⟨s.toNat, (Int.toNat_of_nonneg hs.le).symm⟩
  have hRounds : ∀ n sack_memo, (List.range' k n).reverse.foldl
      (fun sack_memo w => Function.update sack_memo w (sack_memo w || sack_memo (w - k)))
        sack_memo w =
      if k ≤ w ∧ w < k + n then sack_memo w || sack_memo (w - k) else sack_memo w := by
    intro n
    induction n with
    | zero =>
        intro sack_memo
        rw [if_neg (by omega)]
        rfl
    | succ n ih =>
        intro sack_memo
        rw [List.range'_1_concat, List.reverse_append, List.reverse_singleton,
          List.singleton_append, List.foldl_cons, ih]
        by_cases hTop : w = k + n
        · subst hTop
          rw [if_neg (by omega), if_pos (by omega), Function.update_self]
        · rw [Function.update_of_ne hTop]
          split_ifs with hOld hNew hNew
          · rw [Function.update_of_ne (by omega)]
          · omega
          · omega
          · rfl
  rw [add_stone, Int.toNat_natCast, hRounds]
  exact if_congr (by omega) rfl rfl

/-- The largest reachable sum up to a bound. -/
theorem best_half_spec (weights : Int) (hZero : sack_memo 0 = true) (n : Nat) :
    ∃ w ≤ n, best_half weights sack_memo n = weights - 2 * w ∧ sack_memo w = true ∧
      ∀ v ≤ n, sack_memo v = true → v ≤ w := by
  induction n with
  | zero =>
      refine ⟨0, le_rfl, ?_, hZero, fun v hv _ => hv⟩
      rw [best_half, if_pos hZero]
      omega
  | succ n ih =>
      rw [best_half]
      split_ifs with hTop
      · exact ⟨n + 1, le_rfl, by push_cast; omega, hTop, fun v hv _ => hv⟩
      · obtain ⟨w, hw, hEq, hMemo, hLargest⟩ := ih
        refine ⟨w, by omega, hEq, hMemo, fun v hv hReach => ?_⟩
        have hNe : v ≠ n + 1 := fun hSame => hTop (hSame ▸ hReach)
        exact hLargest v (by omega) hReach

end Loops

section Sums

variable {stones : List Int} {m : Multiset Int} {sack_memo : Nat → Bool} {size : Nat} {s w : Int}

/-- Some of the stones weigh this much. -/
def SubsetSum (m : Multiset Int) (w : Int) : Prop :=
  ∃ left right, m = left + right ∧ right.sum = w

/-- One more stone is put on one of the two sides. -/
theorem subsetSum_cons_iff : SubsetSum (s ::ₘ m) w ↔ SubsetSum m w ∨ SubsetSum m (w - s) := by
  constructor
  · rintro ⟨left, right, hGroups, rfl⟩
    rcases Multiset.mem_add.mp (hGroups ▸ Multiset.mem_cons_self s m) with hLeft | hRight
    · obtain ⟨left, rfl⟩ := Multiset.exists_cons_of_mem hLeft
      rw [Multiset.cons_add, Multiset.cons_inj_right] at hGroups
      exact Or.inl ⟨left, right, hGroups, rfl⟩
    · obtain ⟨right, rfl⟩ := Multiset.exists_cons_of_mem hRight
      rw [Multiset.add_cons, Multiset.cons_inj_right] at hGroups
      refine Or.inr ⟨left, right, hGroups, ?_⟩
      rw [Multiset.sum_cons, add_sub_cancel_left]
  · rintro (⟨left, right, rfl, rfl⟩ | ⟨left, right, rfl, hSum⟩)
    · exact ⟨s ::ₘ left, right, Multiset.cons_add s left right |>.symm, rfl⟩
    · refine ⟨left, s ::ₘ right, (Multiset.add_cons s left right).symm, ?_⟩
      rw [Multiset.sum_cons, hSum, add_sub_cancel]

theorem SubsetSum.nonneg (hPos : ∀ x ∈ m, 0 < x) (h : SubsetSum m w) : 0 ≤ w := by
  obtain ⟨left, right, rfl, rfl⟩ := h
  exact Multiset.sum_nonneg fun x hx => (hPos x (Multiset.mem_add.mpr (Or.inr hx))).le

/-- The sums that the vector has found. -/
def Reaches (m : Multiset Int) (size : Nat) (sack_memo : Nat → Bool) : Prop :=
  ∀ w < size, sack_memo w = true ↔ SubsetSum m w

theorem reaches_start (size : Nat) : Reaches 0 size fun w => w = 0 := by
  intro w _
  rw [decide_eq_true_eq]
  constructor
  · rintro rfl
    exact ⟨0, 0, rfl, rfl⟩
  · rintro ⟨left, right, hGroups, hSum⟩
    have hCard := congrArg Multiset.card hGroups
    rw [Multiset.card_zero, Multiset.card_add] at hCard
    rw [Multiset.card_eq_zero.mp (show right.card = 0 by omega), Multiset.sum_zero] at hSum
    omega

theorem reaches_step (hPos : ∀ x ∈ m, 0 < x) (hs : 0 < s) (h : Reaches m size sack_memo) :
    Reaches (s ::ₘ m) size (add_stone size sack_memo s) := by
  intro w hw
  rw [add_stone_eq hs, subsetSum_cons_iff]
  split_ifs with hFits
  · have hRest : ((w - s.toNat : Nat) : Int) = w - s := by omega
    rw [Bool.or_eq_true, h w hw, h (w - s.toNat) (by omega), hRest]
  · rw [h w hw, or_iff_left]
    intro hRest
    have hNonneg := hRest.nonneg hPos
    omega

theorem reaches_all (hStones : ∀ x ∈ stones, 0 < x) (hPos : ∀ x ∈ m, 0 < x)
    (h : Reaches m size sack_memo) :
    Reaches (stones + m) size (stones.foldl (add_stone size) sack_memo) := by
  induction stones generalizing m sack_memo with
  | nil =>
      rw [Multiset.coe_nil, Multiset.zero_add]
      exact h
  | cons s stones ih =>
      rw [List.forall_mem_cons] at hStones
      have hMore : ∀ x ∈ s ::ₘ m, 0 < x := Multiset.forall_mem_cons.mpr ⟨hStones.1, hPos⟩
      have hRest := ih hStones.2 hMore (reaches_step hPos hStones.1 h)
      rwa [Multiset.add_cons, ← Multiset.cons_add, Multiset.cons_coe] at hRest

/-- The sum nearest to a half gives the least difference. -/
theorem isLeast_of_nearest (hPos : ∀ x ∈ m, 0 < x) {half : Nat} (hHalf : SubsetSum m half)
    (hFits : 2 * half ≤ m.sum) (hNearest : ∀ v : Nat, 2 * v ≤ m.sum → SubsetSum m v → v ≤ half) :
    IsLeast (Outcomes m) (m.sum - 2 * half) := by
  apply isLeast_outcomes hPos
  · omega
  · obtain ⟨left, right, rfl, hSum⟩ := hHalf
    refine ⟨left, right, rfl, ?_⟩
    rw [Multiset.sum_add]
    omega
  · rintro d hd ⟨left, right, rfl, rfl⟩
    have hSubset : SubsetSum (left + right) right.sum := ⟨left, right, rfl, rfl⟩
    have hNonneg := hSubset.nonneg hPos
    rw [Multiset.sum_add] at hFits hNearest ⊢
    rw [← Int.toNat_of_nonneg hNonneg] at hSubset
    have hLe := hNearest right.sum.toNat (by omega) hSubset
    omega

end Sums

/-- The result is the least weight that any sequence of smashes can leave. -/
theorem lastStoneWeightII_spec (stones : List Int) (hPos : ∀ s ∈ stones, 0 < s)
    (hTotal : stones.sum < 2 ^ 31) :
    ∃ r, lastStoneWeightII stones = some r ∧ IsLeast (Outcomes (stones : Multiset Int)) r := by
  have hNonneg : 0 ≤ stones.sum := List.sum_nonneg fun s hs => (hPos s hs).le
  have hWeights : accumulate stones = stones.sum := by
    rw [accumulate_eq]
    exact Int.bmod_eq_of_le (by omega) (by omega)
  have hHalf : stones.sum.tdiv 2 = stones.sum / 2 := Int.tdiv_eq_ediv_of_nonneg hNonneg
  have hReaches := reaches_all hPos (by simp) (reaches_start (stones.sum / 2 + 1).toNat)
  rw [Multiset.add_zero] at hReaches
  have hZero := (hReaches 0 (by omega)).mpr ⟨stones, 0, by simp, rfl⟩
  obtain ⟨w, hw, hEq, hMemo, hLargest⟩ := best_half_spec stones.sum hZero (stones.sum / 2).toNat
  refine ⟨stones.sum - 2 * w, ?_, ?_⟩
  · rw [lastStoneWeightII, hWeights, hHalf]
    exact (if_neg (by omega)).trans (congrArg some hEq)
  · have hSum : (stones : Multiset Int).sum = stones.sum := Multiset.sum_coe stones
    rw [← hSum] at hw hLargest ⊢
    refine isLeast_of_nearest hPos ((hReaches w (by omega)).mp hMemo) (by omega) fun v hv hv' => ?_
    exact hLargest v (by omega) ((hReaches v (by omega)).mpr hv')

theorem lastStoneWeightII_spec_five :
    IsLeast (Outcomes (([31, 26, 33, 21, 40] : List Int) : Multiset Int)) 5 := by
  obtain ⟨r, hRun, hLeast⟩ :=
    lastStoneWeightII_spec [31, 26, 33, 21, 40] (by decide) (by decide)
  have hResult : lastStoneWeightII [31, 26, 33, 21, 40] = some 5 := by decide +kernel
  rw [hResult, Option.some.injEq] at hRun
  rwa [hRun]

/-- The sum of the weights is no `int`. -/
theorem not_lastStoneWeightII_spec : ¬∀ stones : List Int, (∀ s ∈ stones, 0 < s ∧ s < 2 ^ 31) →
    ∃ r, lastStoneWeightII stones = some r ∧ IsLeast (Outcomes (stones : Multiset Int)) r := by
  intro hAll
  obtain ⟨r, hRun, -⟩ := hAll [2147483647, 1] (by decide)
  have hNone : lastStoneWeightII [2147483647, 1] = none := by decide
  rw [hNone] at hRun
  cases hRun

end CppPerf.Knapsack
