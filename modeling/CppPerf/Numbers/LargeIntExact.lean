import CppPerf.Numbers.LargeInt
import CppPerf.Semantics.Run

/-! The arithmetic of large integers is exact, over every sequence of
operations on variables that may be the same. -/
namespace CppPerf.Numbers

open Positional Transition

namespace LargeInt

/-- The number that the limbs stand for. -/
def val (a : LargeInt) : Int := value scale a.li

/-- Every limb is a digit, and there is one. -/
structure InRange (a : LargeInt) : Prop where
  digits : Digits scale a.li
  nonempty : a.li ≠ []

theorem InRange.val_nonneg {a : LargeInt} (h : a.InRange) : 0 ≤ a.val := h.digits.value_nonneg

theorem ne_nil_of_trimmed {n : Nat} {li : List Int} (h : Trimmed n li) (hn : 0 < n) : li ≠ [] :=
  List.length_pos_iff.mp (Nat.lt_of_lt_of_le hn h.1)

theorem scale_eq : scale = 1000000000 := rfl

/-- A constructed number is below its type's bound. -/
theorem ofInt_spec {n : Int} (hn : 0 ≤ n) (hBound : n < 2147483648) :
    ∃ a, ofInt n = some a ∧ a.InRange ∧ a.val = n := by
  have hBits : n < 2 ^ 32 := Int.lt_trans hBound (by norm_num)
  obtain ⟨ds, hRun, hDigits, hTrimmed, hValue⟩ :=
    large_int_fill_spec (s := .billion) hn (by decide : 0 < 32) hBits []
  refine ⟨⟨ds⟩, ?_, ⟨hDigits, ne_nil_of_trimmed hTrimmed Nat.one_pos⟩, hValue⟩
  rw [ofInt, hRun]
  rfl

/-- `+=` pads its right operand, which keeps its value. -/
theorem addAssign_spec {a rhs : LargeInt} (ha : Digits scale a.li) (hRhs : Digits scale rhs.li) :
    ∃ r, a.addAssign rhs = some (r, ⟨pad rhs.li a.li.length⟩) ∧ Digits scale r.li ∧
      max a.li.length rhs.li.length ≤ r.li.length ∧ r.val = a.val + rhs.val := by
  obtain ⟨v, hRun, hDigits, hTrimmed, hValue⟩ := sum_spec (s := .billion) ha hRhs
  refine ⟨⟨v⟩, ?_, hDigits, hTrimmed.1, hValue⟩
  rw [addAssign, hRun]
  rfl

section Subtraction

theorem settle_spec (sum : Int) (hLow : -scale ≤ sum) (hHigh : sum < scale) :
    ∃ digit borrow, settle sum = some (digit, borrow) ∧ (0 ≤ digit ∧ digit < scale) ∧
      (0 ≤ borrow ∧ borrow ≤ 1) ∧ digit = sum + scale * borrow := by
  rw [scale_eq] at hLow hHigh ⊢
  rw [settle, scale_eq]
  split_ifs with hNeg
  · rw [fits_32 (by omega) (by omega)]
    exact ⟨_, 1, rfl, by omega, by omega, by omega⟩
  · exact ⟨_, 0, rfl, by omega, by omega, by omega⟩

theorem subLoop_spec {rhs li : List Int} (hRhs : Digits scale rhs) (hLi : Digits scale li)
    (hLength : rhs.length = li.length) {borrow : Int} (hBorrow : 0 ≤ borrow ∧ borrow ≤ 1) :
    ∃ dest borrow', subLoop borrow rhs li = some (dest, borrow') ∧ Digits scale dest ∧
      dest.length = li.length ∧ (0 ≤ borrow' ∧ borrow' ≤ 1) ∧
      value scale dest = value scale li - value scale rhs - borrow +
        scale ^ li.length * borrow' := by
  induction rhs generalizing li borrow with
  | nil =>
      obtain rfl := List.length_eq_zero_iff.mp hLength.symm
      exact ⟨[], borrow, rfl, digits_nil, rfl, hBorrow, by simp⟩
  | cons c1 rhs ih =>
      cases li with
      | nil => cases hLength
      | cons c2 li =>
          obtain ⟨hc1, hRhs⟩ := digits_cons.mp hRhs
          obtain ⟨hc2, hLi⟩ := digits_cons.mp hLi
          have hScale := scale_eq
          obtain ⟨digit, next, hSettle, hDigit, hNext, hEq⟩ :=
            settle_spec (c2 - c1 - borrow) (by omega) (by omega)
          obtain ⟨dest, borrow', hRun, hDest, hDestLength, hLast, hValue⟩ :=
            ih hRhs hLi (Nat.succ.inj hLength) hNext
          refine ⟨digit :: dest, borrow', ?_, digits_cons.mpr ⟨hDigit, hDest⟩,
            by rw [List.length_cons, hDestLength, List.length_cons], hLast, ?_⟩
          · rw [subLoop, fits_32 (by omega) (by omega), Option.bind_some,
              fits_32 (by omega) (by omega), Option.bind_some, hSettle, Option.bind_some]
            dsimp only
            rw [hRun]
            rfl
          · simp only [value_cons, List.length_cons, pow_succ]
            linear_combination hEq + scale * hValue

theorem borrowLoop_spec {li : List Int} (hLi : Digits scale li) {borrow : Int}
    (hBorrow : 0 ≤ borrow ∧ borrow ≤ 1) :
    ∃ dest borrow', borrowLoop borrow li = some (dest, borrow') ∧ Digits scale dest ∧
      dest.length = li.length ∧ (0 ≤ borrow' ∧ borrow' ≤ 1) ∧
      value scale dest = value scale li - borrow + scale ^ li.length * borrow' := by
  induction li generalizing borrow with
  | nil => exact ⟨[], borrow, rfl, digits_nil, rfl, hBorrow, by simp⟩
  | cons c1 li ih =>
      obtain ⟨hc1, hLi⟩ := digits_cons.mp hLi
      have hScale := scale_eq
      obtain ⟨digit, next, hSettle, hDigit, hNext, hEq⟩ :=
        settle_spec (c1 - borrow) (by omega) (by omega)
      obtain ⟨dest, borrow', hRun, hDest, hDestLength, hLast, hValue⟩ := ih hLi hNext
      refine ⟨digit :: dest, borrow', ?_, digits_cons.mpr ⟨hDigit, hDest⟩,
        by rw [List.length_cons, hDestLength, List.length_cons], hLast, ?_⟩
      · rw [borrowLoop, fits_32 (by omega) (by omega), Option.bind_some, hSettle,
          Option.bind_some]
        dsimp only
        rw [hRun]
        rfl
      · simp only [value_cons, List.length_cons, pow_succ]
        linear_combination hEq + scale * hValue

/-- The borrow runs out where the smaller number is subtracted. -/
theorem subAssign_spec {a rhs : LargeInt} (ha : Digits scale a.li) (hRhs : Digits scale rhs.li)
    (hLength : rhs.li.length ≤ a.li.length) (hLe : rhs.val ≤ a.val) :
    ∃ r, a.subAssign rhs = some r ∧ Digits scale r.li ∧ r.li.length = a.li.length ∧
      r.val = a.val - rhs.val := by
  obtain ⟨hTake, hDrop⟩ : Digits scale (a.li.take rhs.li.length) ∧
      Digits scale (a.li.drop rhs.li.length) := by
    rw [← digits_append, List.take_append_drop]
    exact ha
  have hTakeLength : (a.li.take rhs.li.length).length = rhs.li.length := by
    rw [List.length_take, Nat.min_eq_left hLength]
  have hSplit : a.val = value scale (a.li.take rhs.li.length) +
      scale ^ rhs.li.length * value scale (a.li.drop rhs.li.length) := by
    calc a.val = value scale (a.li.take rhs.li.length ++ a.li.drop rhs.li.length) := by
          rw [List.take_append_drop, val]
      _ = _ := by rw [value_append, hTakeLength]
  obtain ⟨low, borrow, hLowRun, hLow, hLowLength, hBorrow, hLowValue⟩ :=
    subLoop_spec hRhs hTake hTakeLength.symm (show (0 : Int) ≤ 0 ∧ (0 : Int) ≤ 1 by omega)
  rw [hTakeLength] at hLowLength hLowValue
  -- whether or not there are limbs to borrow from
  have hHigh : ∃ high borrow', (if borrow ≠ 0 ∧ rhs.li.length < a.li.length then
        borrowLoop borrow (a.li.drop rhs.li.length)
      else some (a.li.drop rhs.li.length, borrow)) = some (high, borrow') ∧
      Digits scale high ∧ high.length = (a.li.drop rhs.li.length).length ∧
      (0 ≤ borrow' ∧ borrow' ≤ 1) ∧
      value scale high = value scale (a.li.drop rhs.li.length) - borrow +
        scale ^ (a.li.drop rhs.li.length).length * borrow' := by
    split_ifs with hMore
    · exact borrowLoop_spec hDrop hBorrow
    · refine ⟨_, borrow, rfl, hDrop, rfl, hBorrow, ?_⟩
      by_cases hZero : borrow = 0
      · rw [hZero, Int.mul_zero, Int.add_zero, Int.sub_zero]
      · have hNone : a.li.drop rhs.li.length = [] := by
          rw [List.drop_eq_nil_iff]
          exact Nat.not_lt.mp fun hLt => hMore ⟨hZero, hLt⟩
        rw [hNone, List.length_nil, pow_zero, Int.one_mul, Int.sub_add_cancel]
  obtain ⟨high, borrow', hHighRun, hHigh, hHighLength, hLast, hHighValue⟩ := hHigh
  have hDigits : Digits scale (low ++ high) := digits_append.mpr ⟨hLow, hHigh⟩
  have hAll : (low ++ high).length = a.li.length := by
    rw [List.length_append, hLowLength, hHighLength, List.length_drop]
    omega
  have hValue : value scale (low ++ high) =
      a.val - rhs.val + scale ^ a.li.length * borrow' := by
    have hPow : scale ^ a.li.length =
        scale ^ rhs.li.length * scale ^ (a.li.drop rhs.li.length).length := by
      rw [← pow_add, List.length_drop, Nat.add_sub_cancel' hLength]
    rw [value_append, hLowLength, hLowValue, hHighValue, hSplit, hPow, val]
    ring
  have hDone : borrow' = 0 := by
    have hLt := hDigits.value_lt
    rw [hAll, hValue] at hLt
    by_contra hOne
    obtain rfl : borrow' = 1 := by omega
    rw [Int.mul_one] at hLt
    omega
  refine ⟨⟨low ++ high⟩, ?_, hDigits, hAll, ?_⟩
  · rw [subAssign, if_pos hLength]
    dsimp only
    rw [hLowRun, Option.bind_some]
    dsimp only
    rw [hHighRun, Option.bind_some]
    exact if_pos hDone
  · rw [hDone, Int.mul_zero, Int.add_zero] at hValue
    exact hValue

end Subtraction

theorem trim0_spec {a : LargeInt} (h : a.InRange) :
    ∃ r, a.trim0 = some r ∧ r.InRange ∧ Trimmed 1 r.li ∧ r.val = a.val := by
  have hValue : value scale (a.li.rdropWhile (· = 0)) = a.val := value_rdropWhile
  cases hKept : a.li.rdropWhile (· = 0) with
  | nil =>
      cases hLi : a.li with
      | nil => exact absurd hLi h.nonempty
      | cons first rest =>
          have hFirst : first = 0 := by
            obtain ⟨k, hk⟩ := exists_rdropWhile a.li
            have hMem : first ∈ List.replicate k (0 : Int) := by
              rw [hKept, List.nil_append, hLi] at hk
              rw [← hk]
              exact List.mem_cons_self
            exact List.eq_of_mem_replicate hMem
          refine ⟨⟨[first]⟩, ?_, ⟨?_, List.cons_ne_nil _ _⟩, ⟨Nat.le_refl 1, ?_⟩, ?_⟩
          · rw [trim0, hKept, hLi]
          · have hAll := h.digits
            rw [hLi] at hAll
            exact digits_cons.mpr ⟨(digits_cons.mp hAll).1, digits_nil⟩
          · exact fun hLong => absurd hLong (Nat.lt_irrefl 1)
          · rw [← hValue, hKept, val, hFirst]
            rfl
  | cons first rest =>
      have hSome : a.li.rdropWhile (· = 0) ≠ [] := by
        rw [hKept]
        exact List.cons_ne_nil _ _
      refine ⟨⟨a.li.rdropWhile (· = 0)⟩, ?_, ⟨h.digits.rdropWhile, hSome⟩,
        ⟨List.length_pos_iff.mpr hSome, fun _ => getLast_rdropWhile hSome⟩, hValue⟩
      rw [trim0, hKept]

section Product

variable {lhs : List Int}

/-- One partial product after the other, each one limb further to the left. -/
theorem productLoop_spec (hLhs : Digits scale lhs) {rhs : List Int} (hRhs : Digits scale rhs)
    {ans : LargeInt} (hAns : ans.InRange) (temp_copy : LargeInt) (power : Nat) :
    ∃ r temp_copy', productLoop lhs ans temp_copy power rhs = some (r, temp_copy') ∧ r.InRange ∧
      r.val = ans.val + scale ^ power * value scale lhs * value scale rhs := by
  induction rhs generalizing ans temp_copy power with
  | nil => exact ⟨ans, temp_copy, rfl, hAns, by simp⟩
  | cons y rhs ih =>
      obtain ⟨hy, hRest⟩ := digits_cons.mp hRhs
      rw [productLoop]
      split_ifs with hPos
      · have hScale := scale_eq
        have hShifted : Digits scale (List.replicate power 0 ++ lhs) :=
          digits_append.mpr ⟨digits_replicate_zero (by omega) _, hLhs⟩
        have hFactor : 0 ≤ y ∧ y < 2147483648 := by omega
        obtain ⟨shifted, hRun, hDigits, _, hValue⟩ :=
          large_int_multiply_spec (s := .billion) hShifted hFactor
        have hPartial : value scale shifted = scale ^ power * value scale lhs * y := by
          refine hValue.trans ?_
          rw [value_append, value_replicate_zero, List.length_replicate, Int.zero_add]
          rfl
        rw [hRun, Option.bind_some]
        -- the order of the operands is for speed
        obtain ⟨first, second, hSwap, hFirst, hSecond, hSum, hLong⟩ : ∃ first second,
            (if ans.li.length < shifted.length then (LargeInt.mk shifted, ans)
              else (ans, LargeInt.mk shifted)) = (first, second) ∧ Digits scale first.li ∧
            Digits scale second.li ∧ first.val + second.val = ans.val + value scale shifted ∧
            ans.li.length ≤ first.li.length := by
          split_ifs with hShort
          · exact ⟨_, _, rfl, hDigits, hAns.digits, Int.add_comm _ _, Nat.le_of_lt hShort⟩
          · exact ⟨_, _, rfl, hAns.digits, hDigits, rfl, Nat.le_refl _⟩
        obtain ⟨total, hAdd, hTotal, hLength, hTotalValue⟩ := addAssign_spec hFirst hSecond
        have hSome : total.li ≠ [] := by
          have hPosLength := List.length_pos_iff.mpr hAns.nonempty
          exact List.length_pos_iff.mp (by omega)
        obtain ⟨r, temp_copy', hLoop, hr, hrValue⟩ :=
          ih hRest ⟨hTotal, hSome⟩ ⟨pad second.li first.li.length⟩ (power + 1)
        refine ⟨r, temp_copy', ?_, hr, ?_⟩
        · rw [hSwap]
          dsimp only
          rw [hAdd, Option.bind_some]
          exact hLoop
        · rw [hrValue, hTotalValue, hSum, hPartial, value_cons, pow_succ]
          ring
      · obtain rfl : y = 0 := by omega
        obtain ⟨r, temp_copy', hRun, hr, hValue⟩ := ih hRest hAns temp_copy (power + 1)
        refine ⟨r, temp_copy', hRun, hr, ?_⟩
        rw [hValue, value_cons, pow_succ]
        ring

theorem multiply1_spec (hLhs : Digits scale lhs) {rhs : List Int} (hRhs : Digits scale rhs) :
    ∃ r, multiply1 lhs rhs = some r ∧ r.InRange ∧
      r.val = value scale lhs * value scale rhs := by
  have hStart : InRange ⟨[0]⟩ :=
    ⟨digits_cons.mpr ⟨by decide, digits_nil⟩, List.cons_ne_nil _ _⟩
  obtain ⟨r, temp_copy', hRun, hr, hValue⟩ := productLoop_spec hLhs hRhs hStart ⟨[0]⟩ 0
  refine ⟨r, ?_, hr, ?_⟩
  · have hZero : ofInt 0 = some ⟨[0]⟩ := rfl
    rw [multiply1, hZero, Option.bind_some, hRun]
    rfl
  · rw [hValue, pow_zero, val, value_cons, value_nil]
    ring

end Product

/-- What clients do with their variables. -/
inductive Op (ι : Type*) where
  | construct (i : ι) (n : Fin 2147483648)
  /-- `k = i + j` -/
  | plus (k i j : ι)
  /-- `i += j`; both may be the same variable. -/
  | addAssign (i j : ι)
  /-- `k = i * j` -/
  | times (k i j : ι)
  | swap (i j : ι)
  | trim0 (i : ι)

variable {ι : Type*} [DecidableEq ι]

/-- For the same variable on both sides of `+=` the sum is written last. -/
def step : Step (ι → LargeInt) (Op ι)
  | w, .construct i n => (ofInt (n.val : Nat)).map fun a => Function.update w i a
  | w, .plus k i j => ((w i).plus (w j)).map fun a => Function.update w k a
  | w, .addAssign i j =>
      ((w i).addAssign (w j)).map fun (a, rhs) => Function.update (Function.update w j rhs) i a
  | w, .times k i j => ((w i).times (w j)).map fun a => Function.update w k a
  | w, .swap i j => some (Function.update (Function.update w i (w j)) j (w i))
  | w, .trim0 i => (w i).trim0.map fun a => Function.update w i a

/-- Every variable is constructed from 0. -/
def zeros : ι → LargeInt := fun _ => ⟨[0]⟩

/-- The same operations on natural numbers. -/
def exact (v : ι → Nat) : Op ι → ι → Nat
  | .construct i n => Function.update v i n.val
  | .plus k i j => Function.update v k (v i + v j)
  | .addAssign i j => Function.update v i (v i + v j)
  | .times k i j => Function.update v k (v i * v j)
  | .swap i j => Function.update (Function.update v i (v j)) j (v i)
  | .trim0 _ => v

/-- The limbs of the number. -/
structure Holds (a : LargeInt) (n : Nat) : Prop extends a.InRange where
  val_eq : a.val = n

def Represents (w : ι → LargeInt) (v : ι → Nat) : Prop := ∀ i, (w i).Holds (v i)

namespace Represents

variable {w : ι → LargeInt} {v : ι → Nat} {a : LargeInt} {n : Nat}

theorem update (h : Represents w v) (i : ι) (ha : a.Holds n) :
    Represents (Function.update w i a) (Function.update v i n) := by
  intro j
  by_cases hj : j = i
  · rw [hj, Function.update_self, Function.update_self]
    exact ha
  · rw [Function.update_of_ne hj, Function.update_of_ne hj]
    exact h j

/-- Another representation of the same number. -/
theorem update_same (h : Represents w v) {i : ι} (ha : a.Holds (v i)) :
    Represents (Function.update w i a) v := by
  have hNew := h.update i ha
  rwa [Function.update_eq_self] at hNew

end Represents

theorem plus_holds {a rhs : LargeInt} {m n : Nat} (ha : a.Holds m) (hRhs : rhs.Holds n) :
    ∃ r, a.addAssign rhs = some (r, ⟨pad rhs.li a.li.length⟩) ∧ r.Holds (m + n) ∧
      Holds ⟨pad rhs.li a.li.length⟩ n := by
  obtain ⟨r, hRun, hDigits, hLength, hValue⟩ := addAssign_spec ha.digits hRhs.digits
  have haLength := List.length_pos_iff.mpr ha.nonempty
  have hrSome : r.li ≠ [] := List.length_pos_iff.mp (by omega)
  have hPadSome : pad rhs.li a.li.length ≠ [] :=
    List.length_pos_iff.mp (by rw [length_pad]; omega)
  refine ⟨r, hRun, ⟨⟨hDigits, hrSome⟩, ?_⟩, ⟨⟨digits_pad hRhs.digits _, hPadSome⟩, ?_⟩⟩
  · rw [hValue, ha.val_eq, hRhs.val_eq]
    rfl
  · rw [val, value_pad]
    exact hRhs.val_eq

theorem step_represents (w : ι → LargeInt) (v : ι → Nat) (op : Op ι) (h : Represents w v) :
    ∃ w', step w op = some w' ∧ Represents w' (exact v op) := by
  cases op with
  | construct i n =>
      obtain ⟨a, hRun, hRange, hVal⟩ :=
        ofInt_spec (Int.natCast_nonneg n.val) (Int.ofNat_lt.mpr n.isLt)
      refine ⟨Function.update w i a, ?_, h.update i ⟨hRange, hVal⟩⟩
      rw [step, hRun]
      rfl
  | plus k i j =>
      obtain ⟨r, hRun, hr, _⟩ := plus_holds (h i) (h j)
      refine ⟨Function.update w k r, ?_, h.update k hr⟩
      rw [step, LargeInt.plus, hRun]
      rfl
  | addAssign i j =>
      obtain ⟨r, hRun, hr, hPad⟩ := plus_holds (h i) (h j)
      refine ⟨_, ?_, (h.update_same hPad).update i hr⟩
      rw [step, hRun]
      rfl
  | times k i j =>
      obtain ⟨r, hRun, hRange, hVal⟩ := multiply1_spec (h i).digits (h j).digits
      have hr : r.Holds (v i * v j) := by
        refine ⟨hRange, hVal.trans ?_⟩
        rw [Nat.cast_mul, ← (h i).val_eq, ← (h j).val_eq]
        rfl
      refine ⟨Function.update w k r, ?_, h.update k hr⟩
      rw [step, LargeInt.times, hRun]
      rfl
  | swap i j => exact ⟨_, rfl, (h.update i (h j)).update j (h i)⟩
  | trim0 i =>
      obtain ⟨r, hRun, hRange, _, hVal⟩ := trim0_spec (h i).toInRange
      refine ⟨Function.update w i r, ?_, h.update_same ⟨hRange, hVal.trans (h i).val_eq⟩⟩
      rw [step, hRun]
      rfl

end LargeInt
end CppPerf.Numbers
