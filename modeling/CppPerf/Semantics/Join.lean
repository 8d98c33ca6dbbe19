import Mathlib.Data.List.Pairwise
import Mathlib.Data.List.TakeWhile
import Mathlib.Order.Lattice
import Mathlib.Tactic.Common

/-! The join of several streams of increasing keys. Each stream has a queue; a
key that heads all queues is joined, and a key below the head of another queue
can be thrown away. -/
namespace Join

variable {ι K : Type*} [LinearOrder K]

/-- A stream has gone past the key without it. -/
def Missed (received : ι → List K) (x : K) : Prop :=
  ∃ i, x ∉ received i ∧ ∃ y ∈ received i, x < y

/-- What was received is gone or queued, and only joined keys and missed keys
are gone. -/
structure Joined (received gone queue : ι → List K) (out : List K) : Prop where
  split : ∀ i, received i = gone i ++ queue i
  increasing : ∀ i, (received i).Pairwise (· < ·)
  sorted : out.Pairwise (· < ·)
  out_gone : ∀ x ∈ out, ∀ i, x ∈ gone i
  gone_out : ∀ i, ∀ x ∈ gone i, x ∈ out ∨ Missed received x

variable {received received' gone queue queue' : ι → List K} {out : List K}

/-- Later keys are larger, so a missed key does not come any more. -/
theorem Missed.append {new : ι → List K} {x : K} (h : Missed received x)
    (hReceived : ∀ i, received' i = received i ++ new i)
    (hIncreasing : ∀ i, (received' i).Pairwise (· < ·)) : Missed received' x := by
  obtain ⟨i, hNot, y, hy, hLess⟩ := h
  have hOrder := hIncreasing i
  rw [hReceived] at hOrder
  refine ⟨i, ?_, y, ?_, hLess⟩
  · rw [hReceived, List.mem_append, not_or]
    refine ⟨hNot, fun hNew => ?_⟩
    exact lt_asymm hLess ((List.pairwise_append.mp hOrder).2.2 y hy x hNew)
  · rw [hReceived]
    exact List.mem_append_left _ hy

theorem Joined.receive {new : ι → List K} (h : Joined received gone queue out)
    (hReceived : ∀ i, received' i = received i ++ new i)
    (hQueue : ∀ i, queue' i = queue i ++ new i)
    (hIncreasing : ∀ i, (received' i).Pairwise (· < ·)) : Joined received' gone queue' out where
  split i := by rw [hReceived, hQueue, h.split, List.append_assoc]
  increasing := hIncreasing
  sorted := h.sorted
  out_gone := h.out_gone
  gone_out i x hx := (h.gone_out i x hx).imp_right fun hMissed =>
    hMissed.append hReceived hIncreasing

/-- Whatever is below the head of one queue is thrown away in all of them. -/
theorem Joined.discard {j : ι} {head : K} {rest : List K} (h : Joined received gone queue out)
    (hHead : queue j = head :: rest) :
    Joined received (fun i => gone i ++ (queue i).takeWhile (· < head))
      (fun i => (queue i).dropWhile (· < head)) out where
  split i := by rw [List.append_assoc, List.takeWhile_append_dropWhile, h.split]
  increasing := h.increasing
  sorted := h.sorted
  out_gone x hx i := List.mem_append_left _ (h.out_gone x hx i)
  gone_out i x hx := by
    rcases List.mem_append.mp hx with hGone | hNew
    · exact h.gone_out i x hGone
    · have hBelow : x < head := by simpa using List.mem_takeWhile_imp hNew
      have hSplit := h.split j
      rw [hHead] at hSplit
      have hOrder := h.increasing j
      rw [hSplit] at hOrder
      by_cases hThere : x ∈ received j
      · -- It can only be gone there, too.
        rw [hSplit] at hThere
        rcases List.mem_append.mp hThere with hGone | hQueued
        · exact h.gone_out j x hGone
        · exfalso
          rcases List.mem_cons.mp hQueued with rfl | hRest
          · exact lt_irrefl x hBelow
          · have hTail := (List.pairwise_append.mp hOrder).2.1
            exact lt_asymm hBelow ((List.pairwise_cons.mp hTail).1 x hRest)
      · refine Or.inr ⟨j, hThere, head, ?_, hBelow⟩
        rw [hSplit]
        exact List.mem_append_right _ List.mem_cons_self

/-- The key at the head of all queues is joined. -/
theorem Joined.publish [Nonempty ι] {head : K} (h : Joined received gone queue out)
    (hHeads : ∀ i, ∃ rest, queue i = head :: rest) :
    Joined received (fun i => gone i ++ [head]) (fun i => (queue i).tail) (out ++ [head]) where
  split i := by
    obtain ⟨rest, hQueue⟩ := hHeads i
    rw [h.split, hQueue, List.tail_cons, List.append_assoc, List.singleton_append]
  increasing := h.increasing
  sorted := by
    refine List.pairwise_append.mpr ⟨h.sorted, List.pairwise_singleton _ _, ?_⟩
    intro x hx y hy
    obtain rfl := List.mem_singleton.mp hy
    obtain ⟨i⟩ : Nonempty ι := inferInstance
    obtain ⟨rest, hQueue⟩ := hHeads i
    have hOrder := h.increasing i
    rw [h.split, hQueue] at hOrder
    exact (List.pairwise_append.mp hOrder).2.2 x (h.out_gone x hx i) y List.mem_cons_self
  out_gone x hx i := by
    rcases List.mem_append.mp hx with hOld | hNew
    · exact List.mem_append_left _ (h.out_gone x hOld i)
    · exact List.mem_append_right _ hNew
  gone_out i x hx := by
    rcases List.mem_append.mp hx with hOld | hNew
    · exact (h.gone_out i x hOld).imp_left (List.mem_append_left _)
    · exact Or.inl (List.mem_append_right _ hNew)

/-- Once a queue is empty, the join is complete. -/
theorem Joined.mem_out_iff {j : ι} (h : Joined received gone queue out) (hEmpty : queue j = [])
    (x : K) : x ∈ out ↔ ∀ i, x ∈ received i := by
  constructor
  · intro hx i
    rw [h.split]
    exact List.mem_append_left _ (h.out_gone x hx i)
  · intro hAll
    have hGone := hAll j
    rw [h.split, hEmpty, List.append_nil] at hGone
    rcases h.gone_out j x hGone with hOut | ⟨i, hNot, _⟩
    · exact hOut
    · exact absurd (hAll i) hNot

end Join
