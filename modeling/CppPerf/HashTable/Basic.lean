import Mathlib.Algebra.Ring.Nat
import Mathlib.Tactic.Common

namespace CppPerf.HashTable

/-- The table sizes handed out by `CalcSize`, shared by the three tables. -/
def calcSize (iDesiredSize : Nat) : Nat :=
  if iDesiredSize < 8000 then 16001
  else if iDesiredSize < 16000 then 32003
  else if iDesiredSize < 32000 then 64007
  else if iDesiredSize < 50000 then 101513
  else if iDesiredSize < 100000 then 200909
  else if iDesiredSize < 200000 then 403649
  else if iDesiredSize < 400000 then 806807
  else if iDesiredSize < 1000000 then 2000003
  else if iDesiredSize < 2000000 then 4000037
  else 8000009

theorem calcSize_bounds (iDesiredSize : Nat) :
    0 < calcSize iDesiredSize ∧ calcSize iDesiredSize ≤ 8000009 := by
  unfold calcSize
  repeat' split
  all_goals decide

theorem calcSize_pos (iDesiredSize : Nat) : 0 < calcSize iDesiredSize :=
  (calcSize_bounds iDesiredSize).1

theorem calcSize_le (iDesiredSize : Nat) : calcSize iDesiredSize ≤ 8000009 :=
  (calcSize_bounds iDesiredSize).2

/-- One call by a client of a table. -/
inductive Call (α : Type*) where
  | insert (key : α)
  | erase (key : α)
  | find (key : α)

end CppPerf.HashTable
