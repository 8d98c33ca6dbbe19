import Mathlib.Data.Multiset.Dedup
import Mathlib.Tactic.Common

/-! Collections from which groups of different elements are discarded. What is frequent enough
is still there in the end. -/
namespace Cancellation

variable {α : Type*}

/-- Of what was seen, groups of `k + 1` different elements have been discarded. -/
inductive Cancels (k : ℕ) : (seen kept : Multiset α) → Prop where
  | start : Cancels k 0 0
  | keep (x : α) {seen kept : Multiset α} (h : Cancels k seen kept) :
      Cancels k (x ::ₘ seen) (x ::ₘ kept)
  | discard {seen kept group : Multiset α} (hNodup : group.Nodup) (hCard : group.card = k + 1)
      (h : Cancels k seen (group + kept)) : Cancels k seen kept

variable [DecidableEq α] {k : ℕ} {seen kept : Multiset α} {x v : α}

/-- A group has no element twice, so that its elements lose at most one occurrence each. -/
theorem Cancels.count_le (h : Cancels k seen kept) :
    ∃ d, seen.card = kept.card + d * (k + 1) ∧ ∀ v, seen.count v ≤ kept.count v + d := by
  induction h with
  | start => exact ⟨0, by simp, fun v => by simp⟩
  | keep x h ih =>
      obtain ⟨d, hCard, hCount⟩ := ih
      refine ⟨d, ?_, fun v => ?_⟩
      · rw [Multiset.card_cons, Multiset.card_cons, hCard, Nat.add_right_comm]
      · have hOld := hCount v
        rw [Multiset.count_cons, Multiset.count_cons]
        omega
  | discard hNodup hGroup h ih =>
      obtain ⟨d, hCard, hCount⟩ := ih
      refine ⟨d + 1, ?_, fun v => ?_⟩
      · rw [hCard, Multiset.card_add, hGroup, Nat.succ_mul]
        omega
      · have hOld := hCount v
        have hOnce := Multiset.nodup_iff_count_le_one.mp hNodup v
        rw [Multiset.count_add] at hOld
        omega

theorem Cancels.card_le (h : Cancels k seen kept) : kept.card ≤ seen.card := by
  obtain ⟨d, hCard, -⟩ := h.count_le
  rw [hCard]
  exact Nat.le_add_right _ _

/-- What makes up more than the `k + 1`st part cannot vanish. -/
theorem Cancels.mem_of_frequent (h : Cancels k seen kept)
    (hFrequent : seen.card < seen.count v * (k + 1)) : v ∈ kept := by
  obtain ⟨d, hCard, hCount⟩ := h.count_le
  by_contra hGone
  have hFew := hCount v
  rw [Multiset.count_eq_zero_of_notMem hGone, Nat.zero_add] at hFew
  have hLe := Nat.mul_le_mul_right (k + 1) hFew
  omega

/-- An element that is not kept is discarded with one of each kind of those that are. -/
theorem Cancels.discard_kinds (h : Cancels k seen kept) (hNew : x ∉ kept)
    (hKinds : kept.dedup.card = k) : Cancels k (x ::ₘ seen) (kept - kept.dedup) := by
  have hGroup : (x ::ₘ kept.dedup).Nodup :=
    Multiset.nodup_cons.mpr ⟨fun hMem => hNew (Multiset.mem_dedup.mp hMem),
      Multiset.nodup_dedup kept⟩
  refine .discard hGroup (by rw [Multiset.card_cons, hKinds]) ?_
  rw [Multiset.cons_add, Multiset.add_comm, Multiset.sub_add_cancel (Multiset.dedup_le kept)]
  exact .keep x h

theorem count_sub_dedup (kept : Multiset α) (v : α) :
    (kept - kept.dedup).count v = kept.count v - 1 := by
  rw [Multiset.count_sub, Multiset.count_dedup]
  split_ifs with hMem
  · rfl
  · rw [Multiset.count_eq_zero_of_notMem hMem]

end Cancellation
