import CppPerf.Semantics.SortedRange
import Mathlib.Algebra.Order.Ring.Int
import Mathlib.Data.List.Basic
import Mathlib.Tactic.Common

/-! The search for broken bits in `codejamQ4.cpp`. The judge only says how many
ones and how many zeros come back; here it is the class `Test` in the mode
that is not interactive. No number exceeds `N`, so no `int` overflows. -/
namespace CppPerf.Selection

structure Test where
  B : List Int

/-- The ones and the zeros that come back from the bits that are not broken. -/
def Test.get_result (test : Test) (bitmask1 bitmask0 : Int) : Int × Int :=
  let found := (test.B.takeWhile (· < bitmask1)).length
  (bitmask1 - found, bitmask0 - (test.B.length - found))

/-- `none` when the calls are nested deeper than `rounds`. -/
def bit_search_interactive (test : Test) :
    (rounds : Nat) → (N left_ones right_zero start mid last : Int) → (result : List Int) →
      Option (List Int)
  | 0, _, _, _, _, _, _, _ => none
  | rounds + 1, N, left_ones, right_zero, start, mid, last, result => do
      let ans := test.get_result mid (N - mid)
      let exp1 := mid - start
      let exp0 := last - mid
      let act1 := ans.1 - left_ones
      let act0 := ans.2 - right_zero
      let result ←
        (if act0 < exp0 then
          let size := last - mid
          if size = 1 then some (result ++ [mid])
          else
            bit_search_interactive test rounds N (act1 + left_ones) right_zero mid
              (mid + size.tdiv 2) last result
        else some result)
      if act1 < exp1 then
        let size := mid - start
        if size = 1 then some (result ++ [start])
        else
          bit_search_interactive test rounds N left_ones (act0 + right_zero) start
            (start + size.tdiv 2) mid result
      else some result

/-! The search finds the broken bits of its segment, the last one first. -/

open SortedRange

variable {B : List Int}

/-- The bits below a position that are not broken. -/
def onesBelow (B : List Int) (m : Int) : Int := m - (SortedRange.below m B).length

/-- The bits from a position on that are not broken. -/
def zerosFrom (B : List Int) (N m : Int) : Int :=
  N - m - (B.length - (SortedRange.below m B).length)

theorem get_result_eq (hB : B.Pairwise (· < ·)) (N mid : Int) :
    (Test.mk B).get_result mid (N - mid) = (onesBelow B mid, zerosFrom B N mid) := by
  simp only [Test.get_result, takeWhile_eq_below hB, onesBelow, zerosFrom]

theorem onesBelow_sub {a b : Int} (hab : a ≤ b) :
    onesBelow B b - onesBelow B a = b - a - (between a b B).length := by
  have hLength := length_below (l := B) hab
  unfold onesBelow
  omega

theorem zerosFrom_sub {a b : Int} (N : Int) (hab : a ≤ b) :
    zerosFrom B N a - zerosFrom B N b = b - a - (between a b B).length := by
  have hLength := length_below (l := B) hab
  unfold zerosFrom
  omega

/-- In a segment of one bit only that bit can be broken. -/
theorem between_single (hB : B.Pairwise (· < ·)) {a b : Int} (hSize : b - a = 1)
    (hNotNil : between a b B ≠ []) : between a b B = [a] := by
  have hAll : ∀ x ∈ between a b B, x = a := by
    intro x hx
    obtain ⟨_, hax, hxb⟩ := mem_between.mp hx
    omega
  have hNodup := between_nodup hB a b
  rcases hParts : between a b B with _ | ⟨x, _ | ⟨y, rest⟩⟩
  · exact absurd hParts hNotNil
  · rw [hParts] at hAll
    rw [hAll x (by simp)]
  · rw [hParts] at hAll hNodup
    rw [hAll x (by simp), hAll y (by simp)] at hNodup
    simp at hNodup

/-- A half is searched only if fewer bits come back from it than it has. -/
theorem half_eq (hB : B.Pairwise (· < ·)) {a b survivors : Int} (result : List Int)
    {search : Option (List Int)} (hSurvivors : survivors = b - a - (between a b B).length)
    (hSearch : between a b B ≠ [] → b - a ≠ 1 →
      search = some (result ++ (between a b B).reverse)) :
    (if survivors < b - a then if b - a = 1 then some (result ++ [a]) else search
      else some result) = some (result ++ (between a b B).reverse) := by
  by_cases hNil : between a b B = []
  · rw [hNil, List.length_nil] at hSurvivors
    rw [if_neg (by omega), hNil, List.reverse_nil, List.append_nil]
  · have hPos := List.length_pos_iff.mpr hNil
    rw [if_pos (by omega)]
    split_ifs with hSize
    · rw [between_single hB hSize hNil, List.reverse_singleton]
    · exact hSearch hNil hSize

/-- The accumulators are the surviving ones in front of the segment and the
surviving zeros behind it. -/
theorem bit_search_interactive_segment (hB : B.Pairwise (· < ·)) (N : Int) (rounds : Nat)
    {start mid last : Int} (result : List Int) (hSegment : start < last)
    (hMid : mid = start + (last - start).tdiv 2) (hRounds : last - start ≤ rounds) :
    bit_search_interactive ⟨B⟩ rounds N (onesBelow B start) (zerosFrom B N last) start mid last
      result = some (result ++ (between start last B).reverse) := by
  induction rounds generalizing start mid last result with
  | zero => omega
  | succ rounds ih =>
      have hHalf : (last - start).tdiv 2 = (last - start) / 2 :=
        Int.tdiv_eq_ediv_of_nonneg (by omega)
      have hStart : start ≤ mid := by omega
      have hLast : mid < last := by omega
      -- The half behind `mid` is searched first.
      have hUpper := half_eq hB result (zerosFrom_sub (B := B) N hLast.le)
        (fun _ _ => ih result hLast rfl (by omega))
      have hLower (found : List Int) := half_eq hB found (onesBelow_sub (B := B) hStart)
        (fun hNotNil _ => by
          have hNotEmpty : start < mid := by
            obtain ⟨x, hx⟩ := List.exists_mem_of_ne_nil _ hNotNil
            obtain ⟨_, hsx, hxm⟩ := mem_between.mp hx
            omega
          exact ih found hNotEmpty rfl (by omega))
      have hParts := between_append hB hStart hLast.le
      simp only [bit_search_interactive, get_result_eq hB, Int.sub_add_cancel]
      rw [hUpper, Option.bind_eq_bind, Option.bind_some, hLower, ← hParts, List.reverse_append,
        List.append_assoc]

/-- All bits are searched, with `N` rounds at most. -/
theorem bit_search_interactive_eq (N : Int) (hN : 1 ≤ N) (hB : B.Pairwise (· < ·))
    (hRange : ∀ b ∈ B, 0 ≤ b ∧ b < N) (result : List Int) (rounds : Nat)
    (hRounds : N ≤ rounds) :
    bit_search_interactive ⟨B⟩ rounds N 0 0 0 (N.tdiv 2) N result =
      some (result ++ B.reverse) := by
  have hAll : between 0 N B = B := by
    rw [between, List.filter_eq_self]
    intro b hb
    simpa using hRange b hb
  have hNone : SortedRange.below 0 B = [] := by
    rw [SortedRange.below, List.filter_eq_nil_iff]
    intro b hb
    have hPos := (hRange b hb).1
    simpa using hPos
  have hBelow : SortedRange.below N B = B := by
    rw [SortedRange.below, List.filter_eq_self]
    intro b hb
    simpa using (hRange b hb).2
  have hOnes : onesBelow B 0 = 0 := by
    rw [onesBelow, hNone]
    rfl
  have hZeros : zerosFrom B N N = 0 := by
    rw [zerosFrom, hBelow]
    omega
  have hMid : N.tdiv 2 = 0 + (N - 0).tdiv 2 := by
    rw [Int.zero_add, Int.sub_zero]
  have hSegment := bit_search_interactive_segment hB N rounds result (by omega) hMid
    (by omega)
  rwa [hOnes, hZeros, hAll] at hSegment

theorem bit_search_interactive_eq_gaps :
    bit_search_interactive ⟨[1, 2, 5]⟩ 9 9 0 0 0 4 9 [7] = some [7, 5, 2, 1] :=
  bit_search_interactive_eq 9 (by decide) (by decide) (by decide) [7] 9 (by decide)

end CppPerf.Selection
