import Mathlib.Data.List.Basic
import Mathlib.Logic.Function.Basic
import Mathlib.Tactic.Common

/-! Breadth-first labels: a queue of labelled nodes, and the labels at the end as
distances from the start. -/
namespace BreadthFirst

variable {ι : Type*}

/-- Joined by a path with this number of edges. -/
inductive Steps (R : ι → ι → Prop) (s : ι) : Nat → ι → Prop where
  | start : Steps R s 0 s
  | next {n : Nat} {x y : ι} (h : Steps R s n x) (hEdge : R x y) : Steps R s (n + 1) y

/-- The length of a shortest path. -/
def Distance (R : ι → ι → Prop) (s v : ι) (d : Nat) : Prop :=
  Steps R s d v ∧ ∀ n, Steps R s n v → d ≤ n

/-- The labels while the nodes in the queue still wait for their neighbours to be
labelled. They are at most one apart. -/
structure Labels (R : ι → ι → Prop) (s : ι) (w : ι → Option Nat) (q : List ι) : Prop where
  start : w s = some 0
  sound : ∀ v d, w v = some d → Steps R s d v
  labelled : ∀ x ∈ q, ∃ d, w x = some d
  near : ∀ x ∈ q, ∀ e, w x = some e → ∀ v d, w v = some d → d ≤ e + 1
  sorted : q.Pairwise fun x y => ∀ d e, w x = some d → w y = some e → d ≤ e
  finished : ∀ x d, w x = some d → x ∉ q → ∀ y, R x y → ∃ e, w y = some e ∧ e ≤ d + 1

theorem update_eq_some_iff [DecidableEq ι] {w : ι → Option Nat} {v y : ι} (hy : w y = none)
    {k e : Nat} :
    Function.update w y (some k) v = some e ↔ w v = some e ∨ v = y ∧ e = k := by
  by_cases hEq : v = y
  · subst hEq
    rw [Function.update_self, hy, Option.some.injEq]
    exact ⟨fun hk => Or.inr ⟨rfl, hk.symm⟩, fun h => h.elim (fun hv => by cases hv) (·.2.symm)⟩
  · rw [Function.update_of_ne hEq]
    exact ⟨Or.inl, fun h => h.elim id fun hNew => absurd hNew.1 hEq⟩

namespace Labels

variable {R : ι → ι → Prop} {s x y : ι} {w : ι → Option Nat} {q : List ι}

theorem initial [DecidableEq ι] (s : ι) :
    Labels R s (Function.update (fun _ => none) s (some 0)) [s] where
  start := Function.update_self _ _ _
  sound v d hv := by
    rcases (update_eq_some_iff rfl).mp hv with hNone | ⟨rfl, rfl⟩
    · cases hNone
    · exact .start
  labelled x hx := ⟨0, List.mem_singleton.mp hx ▸ Function.update_self _ _ _⟩
  near x _ e _ v d hv := by
    rcases (update_eq_some_iff rfl).mp hv with hNone | ⟨-, rfl⟩
    · cases hNone
    · exact Nat.zero_le _
  sorted := List.pairwise_singleton _ _
  finished x d hx hNot := by
    rcases (update_eq_some_iff rfl).mp hx with hNone | ⟨rfl, -⟩
    · cases hNone
    · exact absurd (List.mem_singleton_self x) hNot

/-- The first node of the queue has the smallest label. -/
theorem first_le (h : Labels R s w (x :: q)) {d e : Nat} (hx : w x = some d)
    (hMem : y ∈ x :: q) (hy : w y = some e) : d ≤ e := by
  rcases List.mem_cons.mp hMem with rfl | hMem
  · rw [hx, Option.some.injEq] at hy
    exact Nat.le_of_eq hy
  · exact (List.pairwise_cons.mp h.sorted).1 y hMem d e hx hy

/-- The queue stays sorted when a node with the next label comes to its end. -/
theorem sorted_append [DecidableEq ι] {d : Nat} (h : Labels R s w (x :: q)) (hx : w x = some d)
    (hy : w y = none) :
    (x :: q ++ [y]).Pairwise fun u v => ∀ i j, Function.update w y (some (d + 1)) u = some i →
      Function.update w y (some (d + 1)) v = some j → i ≤ j := by
  have hOld {v : ι} {e : Nat} (hv : v ∈ x :: q)
      (he : Function.update w y (some (d + 1)) v = some e) : w v = some e := by
    rcases (update_eq_some_iff hy).mp he with hOld | ⟨rfl, -⟩
    · exact hOld
    · obtain ⟨k, hk⟩ := h.labelled v hv
      rw [hy] at hk
      cases hk
  refine List.pairwise_append.mpr ⟨?_, List.pairwise_singleton _ _, ?_⟩
  · refine List.Pairwise.imp_of_mem ?_ h.sorted
    intro u v hu hv hLe i j hi hj
    exact hLe i j (hOld hu hi) (hOld hv hj)
  · intro u hu v hv i j hi hj
    rw [List.mem_singleton.mp hv, Function.update_self, Option.some.injEq] at hj
    exact hj ▸ h.near x List.mem_cons_self d hx u i (hOld hu hi)

/-- A neighbour of the first node that has no label gets the next one. -/
theorem label [DecidableEq ι] {d : Nat} (h : Labels R s w (x :: q)) (hx : w x = some d)
    (hEdge : R x y) (hy : w y = none) :
    Labels R s (Function.update w y (some (d + 1))) (x :: q ++ [y]) where
  start := (update_eq_some_iff hy).mpr (Or.inl h.start)
  sound v e hv := by
    rcases (update_eq_some_iff hy).mp hv with hOld | ⟨rfl, rfl⟩
    · exact h.sound v e hOld
    · exact .next (h.sound x d hx) hEdge
  labelled v hv := by
    rcases List.mem_append.mp hv with hOld | hNew
    · obtain ⟨e, he⟩ := h.labelled v hOld
      exact ⟨e, (update_eq_some_iff hy).mpr (Or.inl he)⟩
    · exact ⟨d + 1, List.mem_singleton.mp hNew ▸ Function.update_self _ _ _⟩
  near v hv e he u k hu := by
    have hLow : d ≤ e := by
      rcases (update_eq_some_iff hy).mp he with hOld | ⟨rfl, rfl⟩
      · rcases List.mem_append.mp hv with hMem | hNew
        · exact h.first_le hx hMem hOld
        · rw [List.mem_singleton.mp hNew, hy] at hOld
          cases hOld
      · exact Nat.le_succ d
    rcases (update_eq_some_iff hy).mp hu with hOld | ⟨-, rfl⟩
    · exact Nat.le_trans (h.near x List.mem_cons_self d hx u k hOld) (Nat.succ_le_succ hLow)
    · exact Nat.succ_le_succ hLow
  sorted := h.sorted_append hx hy
  finished v e hv hNot u hu := by
    rcases (update_eq_some_iff hy).mp hv with hOld | ⟨rfl, -⟩
    · obtain ⟨k, hk, hLe⟩ := h.finished v e hOld (fun hMem =>
        hNot (List.mem_append_left _ hMem)) u hu
      exact ⟨k, (update_eq_some_iff hy).mpr (Or.inl hk), hLe⟩
    · exact absurd (List.mem_append_right _ (List.mem_singleton_self v)) hNot

/-- The first node leaves the queue when all its neighbours have a label. -/
theorem pop (h : Labels R s w (x :: q)) (hDone : ∀ y, R x y → ∃ e, w y = some e) :
    Labels R s w q where
  start := h.start
  sound := h.sound
  labelled v hv := h.labelled v (List.mem_cons_of_mem x hv)
  near v hv := h.near v (List.mem_cons_of_mem x hv)
  sorted := (List.pairwise_cons.mp h.sorted).2
  finished v d hv hNot y hEdge := by
    by_cases hEq : v = x
    · subst hEq
      obtain ⟨e, he⟩ := hDone y hEdge
      exact ⟨e, he, h.near v List.mem_cons_self d hv y e he⟩
    · exact h.finished v d hv (List.not_mem_cons_of_ne_of_not_mem hEq hNot) y hEdge

/-- When the queue is empty, nothing that can be reached is left out. -/
theorem labelled_of_steps (h : Labels R s w []) {n : Nat} (hSteps : Steps R s n y) :
    ∃ d, w y = some d ∧ d ≤ n := by
  induction hSteps with
  | start => exact ⟨0, h.start, Nat.le_refl 0⟩
  | next _ hEdge ih =>
      obtain ⟨d, hd, hLe⟩ := ih
      obtain ⟨e, he, hNext⟩ := h.finished _ d hd List.not_mem_nil _ hEdge
      exact ⟨e, he, by omega⟩

theorem distance_iff (h : Labels R s w []) {d : Nat} : w y = some d ↔ Distance R s y d := by
  constructor
  · intro hd
    refine ⟨h.sound y d hd, fun n hSteps => ?_⟩
    obtain ⟨e, he, hLe⟩ := h.labelled_of_steps hSteps
    rw [hd, Option.some.injEq] at he
    exact he ▸ hLe
  · rintro ⟨hSteps, hLeast⟩
    obtain ⟨e, he, hLe⟩ := h.labelled_of_steps hSteps
    have hSame := hLeast e (h.sound y e he)
    rw [he, Nat.le_antisymm hLe hSame]

theorem eq_none_iff (h : Labels R s w []) : w y = none ↔ ¬∃ n, Steps R s n y := by
  constructor
  · rintro hNone ⟨n, hSteps⟩
    obtain ⟨d, hd, -⟩ := h.labelled_of_steps hSteps
    rw [hNone] at hd
    cases hd
  · intro hNot
    by_contra hSome
    obtain ⟨d, hd⟩ := Option.ne_none_iff_exists'.mp hSome
    exact hNot ⟨d, h.sound y d hd⟩

end Labels
end BreadthFirst
