import Mathlib.Algebra.BigOperators.Group.List.Basic
import Mathlib.Algebra.Group.Basic

/-! Two running totals that mirror a queue: what went in and what went out,
each weighed in a commutative group. Counters that wrap around are such a
group, so nothing here depends on how large the totals become. -/
namespace Tally

variable {α G : Type*} [AddCommGroup G]

/-- What is still queued. -/
def total (weight : α → G) (queue : List α) : G := (queue.map weight).sum

/-- What went in less what went out is what is still queued. -/
def Balanced (weight : α → G) (queue : List α) (totalIn totalOut : G) : Prop :=
  totalIn - totalOut = total weight queue

variable {weight : α → G} {queue : List α} {totalIn totalOut : G}

@[simp] theorem total_nil : total weight [] = 0 := rfl

@[simp] theorem total_cons (item : α) :
    total weight (item :: queue) = weight item + total weight queue := by
  rw [total, List.map_cons, List.sum_cons]
  rfl

@[simp] theorem total_append (rest : List α) :
    total weight (queue ++ rest) = total weight queue + total weight rest := by
  rw [total, List.map_append, List.sum_append]
  rfl

theorem balanced_zero : Balanced weight [] 0 0 := sub_self 0

theorem balanced_nil_iff : Balanced weight [] totalIn totalOut ↔ totalIn = totalOut := by
  rw [Balanced, total_nil, sub_eq_zero]

theorem Balanced.push (h : Balanced weight queue totalIn totalOut) (item : α) :
    Balanced weight (queue ++ [item]) (totalIn + weight item) totalOut := by
  have hSum : totalIn - totalOut = total weight queue := h
  rw [Balanced, total_append, total_cons, total_nil, add_zero, add_sub_right_comm, hSum]

theorem Balanced.pop {item : α} (h : Balanced weight (item :: queue) totalIn totalOut) :
    Balanced weight queue totalIn (totalOut + weight item) := by
  have hSum : totalIn - totalOut = weight item + total weight queue := by
    rw [← total_cons]
    exact h
  rw [Balanced, ← sub_sub, hSum, add_sub_cancel_left]

/-- Everything that is queued goes out. -/
theorem Balanced.drain (h : Balanced weight queue totalIn totalOut) :
    Balanced weight [] totalIn (totalOut + total weight queue) := by
  have hSum : totalIn - totalOut = total weight queue := h
  rw [balanced_nil_iff, ← hSum, add_sub_cancel]

/-- A queue emptied without a word to the totals stays balanced only if it
weighed nothing. -/
theorem Balanced.forget_iff (h : Balanced weight queue totalIn totalOut) :
    Balanced weight [] totalIn totalOut ↔ total weight queue = 0 := by
  have hSum : totalIn - totalOut = total weight queue := h
  rw [Balanced, total_nil, hSum]

/-- The same for totals that start again from zero. -/
theorem Balanced.reset_iff : Balanced weight queue 0 0 ↔ total weight queue = 0 := by
  rw [Balanced, sub_self, eq_comm]

end Tally
