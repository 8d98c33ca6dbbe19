import CppPerf.Semantics.EditDistance
import CppPerf.Semantics.GridTable
import CppPerf.Strings.Supersequence

/-! The edit distance of `edit_distance.cpp`, and the number of deletions that make two strings
the same. -/
namespace CppPerf.Strings

open GridTable

variable {α : Type} [DecidableEq α]

/-- Entry `i + 1`, `j + 1` of `dp` in `edit_distance_bottomup`. -/
def edit_distance_cell (s t : List α) (dp : Table Nat) (i j : Nat) : Option Nat := do
  let a ← s[i]?
  let b ← t[j]?
  let replaced := if a = b then dp i j else 1 + dp i j
  return min replaced (1 + min (dp (i + 1) j) (dp i (j + 1)))

/-- `dp[0][j] = j`, for `j` from 1 to `m`. -/
def edit_distance_base : (m : Nat) → Table Nat → Table Nat
  | 0, dp => dp
  | m + 1, dp => (edit_distance_base m dp).set 0 (m + 1) (m + 1)

/-- The rows 1 to `n`, each with its first entry. -/
def edit_distance_rows (s t : List α) (m : Nat) : (n : Nat) → Table Nat → Option (Table Nat)
  | 0, dp => some dp
  | i + 1, dp => do
      let dp ← edit_distance_rows s t m i dp
      fillRow (edit_distance_cell s t) i m (dp.set (i + 1) 0 (i + 1))

def edit_distance_bottomup (s t : List α) (n m : Nat) : Option (Table Nat) :=
  edit_distance_rows s t m n (edit_distance_base m (Table.const 0))

def minDistance (word1 word2 : List α) : Option Nat := do
  let memo ← edit_distance_bottomup word1 word2 word1.length word2.length
  return memo word1.length word2.length

namespace StringDp

/-- The member `dp` is handed on. Which of the two distances in `min` is computed first is
unspecified. -/
def minDistance_from (deleteFirst : Bool) (word1 word2 : List α) (pos1 pos2 : Nat)
    (dp : Table Int) : Option (Int × Table Int) :=
  if pos1 = word1.length then some (word2.length - pos2, dp)
  else if pos2 = word2.length then some (word1.length - pos1, dp)
  else if 0 ≤ dp pos1 pos2 then some (dp pos1 pos2, dp)
  else if h : pos1 < word1.length ∧ pos2 < word2.length then
    if word1[pos1] = word2[pos2] then do
      let (d, dp) ← minDistance_from deleteFirst word1 word2 (pos1 + 1) (pos2 + 1) dp
      return (d, dp.set pos1 pos2 d)
    else if deleteFirst then do
      let (d1, dp) ← minDistance_from deleteFirst word1 word2 (pos1 + 1) pos2 dp
      let (d2, dp) ← minDistance_from deleteFirst word1 word2 pos1 (pos2 + 1) dp
      let d := min (1 + d1) (1 + d2)
      return (d, dp.set pos1 pos2 d)
    else do
      let (d2, dp) ← minDistance_from deleteFirst word1 word2 pos1 (pos2 + 1) dp
      let (d1, dp) ← minDistance_from deleteFirst word1 word2 (pos1 + 1) pos2 dp
      let d := min (1 + d1) (1 + d2)
      return (d, dp.set pos1 pos2 d)
  else none
termination_by (word1.length - pos1) + (word2.length - pos2)

def minDistance (deleteFirst : Bool) (word1 word2 : List α) : Option Int := do
  let (d, _) ← minDistance_from deleteFirst word1 word2 0 0 (Table.const (-1))
  return d

end StringDp
end CppPerf.Strings

/-! The table of `edit_distance_bottomup` has the lengths of the shortest edit scripts, and the
memo of `StringDp` the numbers of characters outside a longest common subsequence. -/
namespace CppPerf.Strings

open GridTable CommonSubsequence EditDistance

variable {α : Type} [DecidableEq α] {s t : List α}

section Bottomup

theorem edit_distance_cell_propagates (s t : List α) : Propagates (edit_distance_cell s t)
    (fun i j v => v = dist (s.take i) (t.take j)) s.length t.length := by
  intro dp i j hi hj hDiagonal hUp hLeft
  have hs := List.getElem?_eq_getElem hi
  have ht := List.getElem?_eq_getElem hj
  simp only [edit_distance_cell, hs, ht, Option.bind_eq_bind, Option.bind_some]
  refine ⟨_, rfl, ?_⟩
  rw [hDiagonal, hUp, hLeft, take_of_getElem hs, take_of_getElem ht, dist_concat]

theorem edit_distance_base_eq {m : Nat} {dp : Table Nat} (hZero : dp 0 0 = 0) :
    ∀ j ≤ m, edit_distance_base m dp 0 j = j := by
  induction m with
  | zero =>
      intro j hj
      rw [Nat.le_zero.mp hj]
      exact hZero
  | succ m ih =>
      intro j hj
      rcases Nat.lt_or_eq_of_le hj with hLt | rfl
      · rw [edit_distance_base, Table.set_of_ne _ (Or.inr (by omega))]
        exact ih j (by omega)
      · exact Table.set_self _

/-- The table after the first rows. -/
def EditTable (s t : List α) (n : Nat) (dp : Table Nat) : Prop :=
  ∀ i ≤ n, ∀ j ≤ t.length, dp i j = dist (s.take i) (t.take j)

theorem edit_distance_rows_table {dp : Table Nat} (hBase : EditTable s t 0 dp) :
    ∀ n ≤ s.length, ∃ dp', edit_distance_rows s t t.length n dp = some dp' ∧
      EditTable s t n dp' := by
  intro n hn
  induction n with
  | zero => exact ⟨dp, rfl, hBase⟩
  | succ n ih =>
      obtain ⟨dp', hRows, hTable⟩ := ih (by omega)
      have hAbove : ∀ j ≤ t.length,
          dp'.set (n + 1) 0 (n + 1) n j = dist (s.take n) (t.take j) := fun j hj => by
        rw [dp'.set_of_ne (Or.inl (by omega))]
        exact hTable n le_rfl j hj
      have hStart : dp'.set (n + 1) 0 (n + 1) (n + 1) 0 = dist (s.take (n + 1)) (t.take 0) := by
        rw [dp'.set_self, List.take_zero, dist_nil_right, List.length_take_of_le hn]
      obtain ⟨dp'', hRow, hNew, hKept⟩ :=
        fillRow_holds (edit_distance_cell_propagates s t) hn hAbove hStart _ le_rfl
      refine ⟨dp'', by simp [edit_distance_rows, hRows, hRow], fun i hi j hj => ?_⟩
      rcases Nat.lt_or_eq_of_le hi with hLt | rfl
      · rw [hKept i j (Or.inl (by omega)), dp'.set_of_ne (Or.inl (by omega))]
        exact hTable i (by omega) j hj
      · exact hNew j hj

theorem minDistance_eq (s t : List α) : minDistance s t = some (dist s t) := by
  have hBase : EditTable s t 0 (edit_distance_base t.length (Table.const 0)) := fun i hi j hj => by
    rw [Nat.le_zero.mp hi, edit_distance_base_eq rfl j hj, List.take_zero, dist_nil_left,
      List.length_take_of_le hj]
  obtain ⟨dp, hRows, hTable⟩ := edit_distance_rows_table hBase s.length le_rfl
  rw [minDistance, edit_distance_bottomup, hRows, Option.bind_eq_bind, Option.bind_some]
  have hLast := hTable s.length le_rfl t.length le_rfl
  rw [List.take_length, List.take_length] at hLast
  exact congrArg some hLast

end Bottomup

namespace StringDp

/-- What is outside a longest common subsequence of the rests of the words. -/
def outside (s t : List α) (i j : Nat) : Int :=
  (s.drop i).length + (t.drop j).length - 2 * lcs (s.drop i) (t.drop j)

/-- An entry that is not negative is right. -/
def Memo (s t : List α) (dp : Table Int) : Prop := ∀ i j, 0 ≤ dp i j → dp i j = outside s t i j

theorem Memo.set {dp : Table Int} (h : Memo s t dp) (i j : Nat) :
    Memo s t (dp.set i j (outside s t i j)) := by
  intro k l hSome
  by_cases hAt : k = i ∧ l = j
  · rw [hAt.1, hAt.2, dp.set_self]
  · rw [dp.set_of_ne (by omega)] at hSome ⊢
    exact h k l hSome

theorem outside_left (s : List α) {j : Nat} (hj : j ≤ t.length) :
    outside s t s.length j = t.length - j := by
  rw [outside, List.drop_length, lcs_nil_left, List.length_nil, List.length_drop]
  omega

theorem outside_right (t : List α) {i : Nat} (hi : i ≤ s.length) :
    outside s t i t.length = s.length - i := by
  rw [outside, List.drop_length, lcs_nil_right, List.length_nil, List.length_drop]
  omega

variable {i j : Nat} (hi : i < s.length) (hj : j < t.length)

theorem outside_of_eq (hEq : s[i] = t[j]) : outside s t i j = outside s t (i + 1) (j + 1) := by
  rw [outside, outside, List.drop_eq_getElem_cons hi, List.drop_eq_getElem_cons hj, hEq,
    lcs_cons_self, List.length_cons, List.length_cons]
  omega

theorem outside_of_ne (hNe : s[i] ≠ t[j]) :
    outside s t i j = min (1 + outside s t (i + 1) j) (1 + outside s t i (j + 1)) := by
  have hs := List.drop_eq_getElem_cons hi
  have ht := List.drop_eq_getElem_cons hj
  have hLcs := lcs_cons_of_ne hNe (s.drop (i + 1)) (t.drop (j + 1))
  rw [← hs, ← ht] at hLcs
  have hsLength := congrArg List.length hs
  have htLength := congrArg List.length ht
  rw [List.length_cons] at hsLength htLength
  unfold outside
  omega

/-- Skipping only one of two different characters is enough, whatever the memo holds already. -/
theorem minDistance_from_eq (deleteFirst : Bool) (s t : List α) (i j : Nat) (dp : Table Int)
    (hi : i ≤ s.length) (hj : j ≤ t.length) (hMemo : Memo s t dp) :
    ∃ dp', minDistance_from deleteFirst s t i j dp = some (outside s t i j, dp') ∧
      Memo s t dp' := by
  induction hn : (s.length - i) + (t.length - j) using Nat.strongRecOn generalizing i j dp with
  | ind n ih =>
      rw [minDistance_from]
      split_ifs with hLeft hRight hKnown hInside hEq hFirst
      · exact ⟨dp, by rw [hLeft, outside_left s hj], hMemo⟩
      · exact ⟨dp, by rw [hRight, outside_right t hi], hMemo⟩
      · exact ⟨dp, by rw [hMemo i j hKnown], hMemo⟩
      · obtain ⟨dp', hRun, hMemo'⟩ := ih _ (by omega) (i + 1) (j + 1) dp (by omega) (by omega)
          hMemo rfl
        rw [outside_of_eq hInside.1 hInside.2 hEq, hRun]
        refine ⟨_, rfl, ?_⟩
        rw [← outside_of_eq hInside.1 hInside.2 hEq]
        exact hMemo'.set i j
      · obtain ⟨dp', hRun, hMemo'⟩ := ih _ (by omega) (i + 1) j dp (by omega) hj hMemo rfl
        obtain ⟨dp'', hRun', hMemo''⟩ := ih _ (by omega) i (j + 1) dp' hi (by omega) hMemo' rfl
        simp only [hRun, hRun', Option.bind_eq_bind, Option.bind_some]
        rw [← outside_of_ne hInside.1 hInside.2 hEq]
        exact ⟨_, rfl, hMemo''.set i j⟩
      · obtain ⟨dp', hRun, hMemo'⟩ := ih _ (by omega) i (j + 1) dp hi (by omega) hMemo rfl
        obtain ⟨dp'', hRun', hMemo''⟩ := ih _ (by omega) (i + 1) j dp' (by omega) hj hMemo' rfl
        simp only [hRun, hRun', Option.bind_eq_bind, Option.bind_some]
        rw [← outside_of_ne hInside.1 hInside.2 hEq]
        exact ⟨_, rfl, hMemo''.set i j⟩
      · omega

theorem minDistance_eq_outside (deleteFirst : Bool) (s t : List α) :
    minDistance deleteFirst s t = some (s.length + t.length - 2 * (lcs s t : Int)) := by
  have hMemo : Memo s t (Table.const (-1)) := fun i j hSome =>
    absurd hSome (by decide : ¬(0 : Int) ≤ -1)
  obtain ⟨dp, hRun, -⟩ :=
    minDistance_from_eq deleteFirst s t 0 0 _ (Nat.zero_le _) (Nat.zero_le _) hMemo
  rw [minDistance, hRun, outside, List.drop_zero, List.drop_zero]
  rfl

end StringDp

end CppPerf.Strings
