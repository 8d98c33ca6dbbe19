import CppPerf.Numbers.LargeIntExact
import Mathlib.Tactic.Linarith

/-! The multiplication that divides its operands into halves, of which the left
one is less significant and may be longer by one limb. -/
namespace CppPerf.Numbers.LargeInt

open Positional

/-- What is left of the product of the sums: `XlYr + XrYl`. -/
def middlePart (mid_part XlYl XrYr : LargeInt) : Option LargeInt :=
  XlYl.trim0.bind fun XlYl =>
  XrYr.trim0.bind fun XrYr =>
  (mid_part.subAssign XlYl).bind fun mid_part =>
  (mid_part.subAssign XrYr).bind fun mid_part =>
  mid_part.trim0

/-- On ranges, with the assertion that they have the same length. `fuel` bounds
the depth of the recursion. -/
def multiplyFastRange : Nat → List Int → List Int → Option LargeInt
  | 0, _, _ => none
  | fuel + 1, lhs, rhs =>
      if lhs.length = rhs.length then
        if lhs.length < 10 then multiply1 lhs rhs
        else
          let right_half := rhs.length / 2
          let left_half := rhs.length - right_half
          (multiplyFastRange fuel (lhs.drop left_half) (rhs.drop left_half)).bind fun XrYr =>
          (multiplyFastRange fuel (lhs.take left_half) (rhs.take left_half)).bind fun XlYl =>
          (addAssign ⟨List.replicate (left_half * 2) 0 ++ XrYr.li⟩ XlYl).bind fun (ans, XlYl) =>
          (add (lhs.take left_half) (lhs.drop left_half)).bind fun XlXr =>
          (add (rhs.take left_half) (rhs.drop left_half)).bind fun YlYr =>
          (multiplyFastRange fuel (pad XlXr.li YlYr.li.length)
            (pad YlYr.li XlXr.li.length)).bind fun mid_part =>
          (middlePart mid_part XlYl XrYr).bind fun mid_part =>
          (ans.addAssign ⟨List.replicate left_half 0 ++ mid_part.li⟩).map Prod.fst
      else none

/-- The product, and both operands as they are padded. -/
def multiply_fast (fuel : Nat) (lhs rhs : LargeInt) : Option (LargeInt × LargeInt × LargeInt) :=
  let padded_lhs := pad lhs.li rhs.li.length
  let padded_rhs := pad rhs.li lhs.li.length
  (multiplyFastRange fuel padded_lhs padded_rhs).map fun ans => (ans, ⟨padded_lhs⟩, ⟨padded_rhs⟩)

/-- The sum of a range and a shorter one has at most one limb more. -/
theorem add_spec {lhs rhs : List Int} (hLhs : Digits scale lhs) (hRhs : Digits scale rhs)
    (hLength : rhs.length ≤ lhs.length) :
    ∃ r, add lhs rhs = some r ∧ Digits scale r.li ∧ r.li.length ≤ lhs.length + 1 ∧
      r.val = value scale lhs + value scale rhs := by
  have hPad : lhs.length = (pad rhs lhs.length).length := by
    rw [length_pad, Nat.max_eq_right hLength]
  obtain ⟨low, carry, hRun, hLow, hLowLength, hCarry, hValue⟩ :=
    sum_int_spec (s := .billion) hLhs (digits_pad hRhs _) hPad
      (show (0 : Int) ≤ 0 ∧ (0 : Int) ≤ 1 by omega)
  rw [value_pad, Int.add_zero] at hValue
  obtain ⟨v, hFill, hDigits, hTrimmed, hFilled⟩ := fill_carry_spec hLow hCarry.1 (by omega)
  rw [hLowLength] at hTrimmed hFilled
  have hVal : value scale v = value scale lhs + value scale rhs := hFilled.trans hValue
  have hShort : v.length ≤ lhs.length + 1 := by
    have hTop : Digits scale (low ++ [carry]) :=
      digits_append.mpr ⟨hLow, digits_cons.mpr ⟨by rw [scale_eq]; omega, digits_nil⟩⟩
    have hSame : value scale v = value scale (low ++ [carry]) := by
      rw [value_append, hLowLength, value_cons, value_nil, Int.mul_zero, Int.add_zero]
      exact hFilled
    have hTopLength : (low ++ [carry]).length = lhs.length + 1 := by
      rw [List.length_append, hLowLength, List.length_singleton]
    rw [← hTopLength]
    exact hTrimmed.length_le hDigits hTop (by omega) (Int.le_of_eq hSame) (by decide)
  refine ⟨⟨v⟩, ?_, hDigits, hShort, hVal⟩
  rw [add, if_neg (Nat.not_lt.mpr hLength), hRun, Option.bind_some]
  dsimp only
  split_ifs at hFill ⊢ with hPos hNonzero hNonzero
  · rw [hFill]
    rfl
  · omega
  · omega
  · rw [Option.some.inj hFill]

/-- A shorter left range is returned as it is, padded with zeros. -/
theorem add_of_short {lhs rhs : List Int} (hLength : lhs.length < rhs.length) :
    add lhs rhs = some ⟨pad lhs rhs.length⟩ := by
  rw [add, if_pos hLength]
  rfl

/-- The sum is the one of the values exactly if the right range is not the longer
one, or has nothing to add. -/
theorem add_exact_iff (lhs rhs : List Int) (hLhs : Digits scale lhs) (hRhs : Digits scale rhs) :
    (∃ r, add lhs rhs = some r ∧ Digits scale r.li ∧
      r.val = value scale lhs + value scale rhs) ↔
      rhs.length ≤ lhs.length ∨ ∀ c ∈ rhs, c = 0 := by
  constructor
  · rintro ⟨r, hRun, -, hVal⟩
    by_cases hLength : rhs.length ≤ lhs.length
    · exact Or.inl hLength
    · rw [add_of_short (Nat.not_le.mp hLength), Option.some.injEq] at hRun
      subst hRun
      rw [val, value_pad] at hVal
      exact Or.inr ((value_eq_zero_iff hRhs).mp (by omega))
  · intro hCond
    by_cases hLength : rhs.length ≤ lhs.length
    · obtain ⟨r, hRun, hDigits, -, hVal⟩ := add_spec hLhs hRhs hLength
      exact ⟨r, hRun, hDigits, hVal⟩
    · have hZero := (value_eq_zero_iff hRhs).mpr (hCond.resolve_left hLength)
      refine ⟨_, add_of_short (Nat.not_le.mp hLength), ?_, ?_⟩
      · exact digits_pad (s := .billion) hLhs _
      · rw [val, value_pad, hZero, Int.add_zero]

/-- 1 and 2 · 10^9: the second number is lost. -/
theorem add_short_left :
    add [1] [0, 2] = some ⟨[1, 0]⟩ ∧
      ¬(∀ lhs rhs : List Int, Digits scale lhs → Digits scale rhs →
        ∃ r, add lhs rhs = some r ∧ Digits scale r.li ∧
          r.val = value scale lhs + value scale rhs) := by
  refine ⟨rfl, fun h => ?_⟩
  have hOne : Digits scale [1] := digits_cons.mpr ⟨by decide, digits_nil⟩
  have hTwo : Digits scale [0, 2] :=
    digits_cons.mpr ⟨by decide, digits_cons.mpr ⟨by decide, digits_nil⟩⟩
  obtain ⟨r, hRun, -, hVal⟩ := h [1] [0, 2] hOne hTwo
  rw [add_of_short (by decide), Option.some.injEq] at hRun
  subst hRun
  exact absurd hVal (by decide)

/-- A carry out of the top limb of a longer left range. -/
theorem add_exact_carry :
    ∃ r, add [999999999, 999999999] [1] = some r ∧ Digits scale r.li ∧
      r.val = value scale [999999999, 999999999] + value scale [1] := by
  have hOne : Digits scale [1] := digits_cons.mpr ⟨by decide, digits_nil⟩
  have hNines : Digits scale [999999999, 999999999] :=
    digits_cons.mpr ⟨by decide, digits_cons.mpr ⟨by decide, digits_nil⟩⟩
  exact (add_exact_iff [999999999, 999999999] [1] hNines hOne).mpr (Or.inl (by decide))

/-- The trimmed products of the halves are not longer than the product of the
sums, and no borrow is left. -/
theorem middlePart_spec {mid_part XlYl XrYr : LargeInt} (hMid : mid_part.InRange)
    (hl : XlYl.InRange) (hr : XrYr.InRange) (hLe : XlYl.val + XrYr.val ≤ mid_part.val) :
    ∃ m, middlePart mid_part XlYl XrYr = some m ∧ m.InRange ∧
      m.val = mid_part.val - XlYl.val - XrYr.val := by
  have hlNonneg := hl.val_nonneg
  have hrNonneg := hr.val_nonneg
  obtain ⟨l, hlRun, hlRange, hlTrimmed, hlVal⟩ := trim0_spec hl
  obtain ⟨r, hrRun, hrRange, hrTrimmed, hrVal⟩ := trim0_spec hr
  have hMidLength := List.length_pos_iff.mpr hMid.nonempty
  have hlLength : l.li.length ≤ mid_part.li.length :=
    hlTrimmed.length_le hlRange.digits hMid.digits hMidLength (show l.val ≤ mid_part.val by omega)
      (by decide)
  obtain ⟨m₁, hRun₁, hDigits₁, hLength₁, hVal₁⟩ :=
    subAssign_spec hMid.digits hlRange.digits hlLength (by omega)
  have hrLength : r.li.length ≤ m₁.li.length :=
    hrTrimmed.length_le hrRange.digits hDigits₁ (by omega) (show r.val ≤ m₁.val by omega)
      (by decide)
  obtain ⟨m₂, hRun₂, hDigits₂, hLength₂, hVal₂⟩ :=
    subAssign_spec hDigits₁ hrRange.digits hrLength (by omega)
  have hRange₂ : m₂.InRange := ⟨hDigits₂, List.length_pos_iff.mp (by omega)⟩
  obtain ⟨m, hRun, hRange, _, hVal⟩ := trim0_spec hRange₂
  refine ⟨m, ?_, hRange, by omega⟩
  rw [middlePart, hlRun, Option.bind_some, hrRun, Option.bind_some, hRun₁, Option.bind_some,
    hRun₂, Option.bind_some, hRun]

/-- A number that is shifted by some limbs. -/
theorem shifted_spec {a : LargeInt} (h : a.InRange) (n : Nat) :
    InRange ⟨List.replicate n 0 ++ a.li⟩ ∧
      val ⟨List.replicate n 0 ++ a.li⟩ = scale ^ n * a.val := by
  have hDigits : Digits scale (List.replicate n 0 ++ a.li) :=
    digits_append.mpr ⟨digits_replicate_zero (by decide) n, h.digits⟩
  refine ⟨⟨hDigits, List.append_ne_nil_of_right_ne_nil _ h.nonempty⟩, ?_⟩
  rw [val, value_append, value_replicate_zero, List.length_replicate, Int.zero_add, val]

theorem addAssign_inRange {a rhs : LargeInt} (ha : a.InRange) (hRhs : rhs.InRange) :
    ∃ r rhs', a.addAssign rhs = some (r, rhs') ∧ r.InRange ∧ rhs'.InRange ∧
      r.val = a.val + rhs.val ∧ rhs'.val = rhs.val := by
  have hHolds : a.Holds a.val.toNat := ⟨ha, (Int.toNat_of_nonneg ha.val_nonneg).symm⟩
  have hHolds' : rhs.Holds rhs.val.toNat :=
    ⟨hRhs, (Int.toNat_of_nonneg hRhs.val_nonneg).symm⟩
  obtain ⟨r, hRun, hr, hPad⟩ := plus_holds hHolds hHolds'
  refine ⟨r, _, hRun, hr.toInRange, hPad.toInRange, ?_, ?_⟩
  · rw [hr.val_eq, Nat.cast_add, ← hHolds.val_eq, ← hHolds'.val_eq]
  · rw [hPad.val_eq, ← hHolds'.val_eq]

/-- The two halves of a range. -/
theorem halves_spec {li : List Int} (h : Digits scale li) {n : Nat} (hn : n ≤ li.length) :
    Digits scale (li.take n) ∧ Digits scale (li.drop n) ∧
      value scale li = value scale (li.take n) + scale ^ n * value scale (li.drop n) := by
  have hSplit := h
  rw [← List.take_append_drop n li, digits_append] at hSplit
  refine ⟨hSplit.1, hSplit.2, ?_⟩
  calc value scale li = value scale (li.take n ++ li.drop n) := by rw [List.take_append_drop]
    _ = _ := by rw [value_append, List.length_take, Nat.min_eq_left hn]

theorem multiplyFastRange_spec (fuel : Nat) {lhs rhs : List Int} (hLhs : Digits scale lhs)
    (hRhs : Digits scale rhs) (hLength : lhs.length = rhs.length) (hFuel : lhs.length < fuel) :
    ∃ r, multiplyFastRange fuel lhs rhs = some r ∧ r.InRange ∧
      r.val = value scale lhs * value scale rhs := by
  induction fuel generalizing lhs rhs with
  | zero => omega
  | succ fuel ih =>
      rw [multiplyFastRange, if_pos hLength]
      split_ifs with hSmall
      · exact multiply1_spec hLhs hRhs
      · dsimp only
        generalize hHalf : rhs.length - rhs.length / 2 = half
        obtain ⟨hXl, hXr, hX⟩ := halves_spec hLhs (show half ≤ lhs.length by omega)
        obtain ⟨hYl, hYr, hY⟩ := halves_spec hRhs (show half ≤ rhs.length by omega)
        have hTake : (lhs.take half).length = half := by rw [List.length_take]; omega
        have hTake' : (rhs.take half).length = half := by rw [List.length_take]; omega
        have hDrop : (lhs.drop half).length = rhs.length / 2 := by rw [List.length_drop]; omega
        have hDrop' : (rhs.drop half).length = rhs.length / 2 := by rw [List.length_drop]; omega
        obtain ⟨XrYr, hRunR, hR, hRVal⟩ := ih hXr hYr (by omega) (by omega)
        obtain ⟨XlYl, hRunL, hL, hLVal⟩ := ih hXl hYl (by omega) (by omega)
        obtain ⟨hHigh, hHighVal⟩ := shifted_spec hR (half * 2)
        obtain ⟨ans, XlYl', hAns, hAnsRange, hL', hAnsVal, hLVal'⟩ := addAssign_inRange hHigh hL
        obtain ⟨XlXr, hAddX, hDigitsX, hLengthX, hSumX⟩ := add_spec hXl hXr (by omega)
        obtain ⟨YlYr, hAddY, hDigitsY, hLengthY, hSumY⟩ := add_spec hYl hYr (by omega)
        obtain ⟨mid, hRunM, hM, hMVal⟩ := ih (digits_pad (s := .billion) hDigitsX YlYr.li.length)
          (digits_pad (s := .billion) hDigitsY XlXr.li.length)
          (by rw [length_pad, length_pad, Nat.max_comm]) (by rw [length_pad]; omega)
        rw [value_pad, value_pad] at hMVal
        have hMVal' : mid.val = (value scale (lhs.take half) + value scale (lhs.drop half)) *
            (value scale (rhs.take half) + value scale (rhs.drop half)) := by
          rw [← hSumX, ← hSumY]
          exact hMVal
        have hCross : 0 ≤ value scale (lhs.take half) * value scale (rhs.drop half) +
            value scale (lhs.drop half) * value scale (rhs.take half) :=
          Int.add_nonneg (Int.mul_nonneg hXl.value_nonneg hYr.value_nonneg)
            (Int.mul_nonneg hXr.value_nonneg hYl.value_nonneg)
        have hLe : XlYl'.val + XrYr.val ≤ mid.val := by
          rw [hLVal', hLVal, hRVal, hMVal']
          linarith
        obtain ⟨m, hRunMid, hm, hmVal⟩ := middlePart_spec hM hL' hR hLe
        obtain ⟨hShift, hShiftVal⟩ := shifted_spec hm half
        obtain ⟨r, m', hLast, hr, _, hrVal, _⟩ := addAssign_inRange hAnsRange hShift
        refine ⟨r, ?_, hr, ?_⟩
        · rw [hRunR, Option.bind_some, hRunL, Option.bind_some, hAns, Option.bind_some]
          dsimp only
          rw [hAddX, Option.bind_some, hAddY, Option.bind_some, hRunM, Option.bind_some, hRunMid,
            Option.bind_some, hLast]
          rfl
        · rw [hrVal, hAnsVal, hHighVal, hShiftVal, hmVal, hMVal', hLVal', hLVal, hRVal, hX, hY]
          ring

end CppPerf.Numbers.LargeInt
