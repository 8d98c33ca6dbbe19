import CppPerf.Prices.Price
import CppPerf.Semantics.Truncation

/-! `Int64ToPrice` keeps the price, except where it reads the last power of its
table, which is too small. -/
namespace CppPerf.Prices

open Truncation

def FitsInt32 (m : Int) : Prop := INT32_MIN ≤ m ∧ m ≤ INT32_MAX

instance (m : Int) : Decidable (FitsInt32 m) := inferInstanceAs (Decidable (_ ∧ _))

/-- What a price is to be for `priceRaw` with `n` decimals. -/
structure Keeps (priceRaw : Int) (n : Nat) (price : LPACK) : Prop where
  zero : price = ZeroPrice →
    ¬FitsInt32 (truncate 10 priceRaw n 0) ∨ truncate 10 priceRaw n 7 = 0
  kept : price ≠ ZeroPrice → ∃ d : Nat, d ≤ 7 ∧ baseCode d = some price.wBase ∧
    FitsInt32 price.lVal ∧ price.lVal = truncate 10 priceRaw n d ∧
    ∀ m d', d' ≤ 7 → FitsInt32 m → Same 10 priceRaw n m d' → Same 10 priceRaw n price.lVal d

namespace Int64ToPrice

variable {priceRaw : Int} {n ind rounds : Nat}

/-- The places of the decimals that can be dropped. -/
def Enough (priceRaw : Int) (n ind : Nat) : Prop :=
  n ≤ 7 + ind ∧ FitsInt32 (priceRaw.tdiv (10 ^ ind))

theorem pow10_get (h : ind ≤ 17) : Pow10[ind]? = some (10 ^ ind) := by
  have hAll : ∀ i < 18, Pow10[i]? = some (10 ^ i) := by decide
  exact hAll ind (by omega)

theorem overflows_iff (h : ind ≤ 17) :
    ∃ r, overflows priceRaw n 7 ind = some r ∧ (r = true ↔ ¬Enough priceRaw n ind) := by
  rw [overflows, pow10_get h]
  split_ifs with hLong
  · exact ⟨true, rfl, iff_of_true rfl fun hEnough => by have := hEnough.1; omega⟩
  · refine ⟨_, rfl, ?_⟩
    rw [Bool.or_eq_true, decide_eq_true_iff, decide_eq_true_iff, Enough, FitsInt32]
    omega

/-- A quotient by the largest correct power fits. -/
theorem enough_seventeen (hRange : -2 ^ 63 ≤ priceRaw ∧ priceRaw < 2 ^ 63) (hn : n ≤ 18) :
    Enough priceRaw n 17 := by
  have hAbs : (priceRaw.tdiv (10 ^ 17)).natAbs = priceRaw.natAbs / 10 ^ 17 :=
    Int.natAbs_tdiv priceRaw (10 ^ 17)
  refine ⟨by omega, ?_⟩
  rw [FitsInt32, INT32_MIN, INT32_MAX]
  omega

/-- The second loop drops as few digits as it can. -/
theorem reduce_spec (hRange : -2 ^ 63 ≤ priceRaw ∧ priceRaw < 2 ^ 63) (hn : n ≤ 18)
    (hInd : ind ≤ n) (hSmall : ind ≤ 17) (hRounds : 18 < rounds + ind) :
    (∃ i wBase, ind ≤ i ∧ i ≤ n ∧ Enough priceRaw n i ∧
        (∀ j, ind ≤ j → j < i → ¬Enough priceRaw n j) ∧ baseCode (n - i : Nat) = some wBase ∧
        reduce priceRaw n 7 rounds ind = some ⟨wBase, priceRaw.tdiv (10 ^ i)⟩) ∨
      (¬Enough priceRaw n n ∧ reduce priceRaw n 7 rounds ind = some ZeroPrice) := by
  induction rounds generalizing ind with
  | zero => omega
  | succ rounds ih =>
      obtain ⟨r, hRun, hIff⟩ := overflows_iff (n := n) hSmall
      rw [reduce, hRun, Option.bind_eq_bind, Option.bind_some]
      split_ifs with hOver
      · have hNot := hIff.mp hOver
        have hLess : ind < 17 := by
          by_contra hEnd
          have hEq : ind = 17 := by omega
          exact hNot (hEq ▸ enough_seventeen hRange hn)
        by_cases hStop : ((ind + 1 : Nat) : Int) > n ∨ ind + 1 ≥ Pow10L
        · have hEq : ind = n := by
            have hLength : Pow10L = 19 := rfl
            omega
          exact Or.inr ⟨hEq ▸ hNot, if_pos hStop⟩
        · have hNext : ind + 1 ≤ n := by omega
          rw [if_neg hStop]
          rcases ih hNext hLess (by omega) with hDone | hZero
          · obtain ⟨i, wBase, hLe, hi, hEnough, hFirst, hCode, hEq⟩ := hDone
            refine Or.inl ⟨i, wBase, by omega, hi, hEnough, fun j hj hji => ?_, hCode, hEq⟩
            rcases Nat.eq_or_lt_of_le hj with rfl | hLt
            · exact hNot
            · exact hFirst j hLt hji
          · exact Or.inr hZero
      · have hEnough : Enough priceRaw n ind := not_not.mp fun h => hOver (hIff.mpr h)
        have hLong := hEnough.1
        obtain ⟨wBase, hCode⟩ := baseCode_isSome (d := n - ind) (by omega)
        refine Or.inl ⟨ind, wBase, Nat.le_refl ind, hInd, hEnough, ?_, hCode, ?_⟩
        · exact fun j hj hji => absurd hji (Nat.not_lt.mpr hj)
        · rw [← Int.ofNat_sub hInd, hCode, pow10_get hSmall]
          rfl

/-- The first loop ends at the last zero, and reads correct powers only. -/
theorem removeZeros_spec (hPower : ¬(n = 18 ∧ 10 ^ 17 ∣ priceRaw)) (hn : n ≤ 18) (hInd : ind ≤ n)
    (hSmall : ind ≤ 17) (hDvd : 10 ^ ind ∣ priceRaw) (hRounds : n < rounds + ind) :
    ∃ z, z ≤ n ∧ z ≤ 17 ∧ 10 ^ z ∣ priceRaw ∧ (z = n ∨ ¬10 ^ (z + 1) ∣ priceRaw) ∧
      removeZeros priceRaw n 7 rounds ind = reduce priceRaw n 7 Pow10L z := by
  induction rounds generalizing ind with
  | zero => omega
  | succ rounds ih =>
      rw [removeZeros]
      split_ifs with hMore
      · have hLess : ind < 17 := by
          by_contra hEnd
          have hEq : ind = 17 := by omega
          exact hPower ⟨by omega, hEq ▸ hDvd⟩
        rw [pow10_get hLess, Option.bind_eq_bind, Option.bind_some]
        split_ifs with hDigit
        · exact ⟨ind, hInd, hSmall, hDvd, Or.inr fun h => hDigit (Int.tmod_eq_zero_of_dvd h), rfl⟩
        · have hNext : 10 ^ (ind + 1) ∣ priceRaw :=
            Int.dvd_of_tmod_eq_zero (not_not.mp hDigit)
          have hRoom : ¬ind + 1 ≥ Pow10L := by
            have hLength : Pow10L = 19 := rfl
            omega
          rw [if_neg hRoom]
          exact ih (by omega) hLess hNext (by omega)
      · exact ⟨ind, hInd, hSmall, hDvd, Or.inl (by omega), rfl⟩

/-- A price that a mantissa of 32 bits can stand for keeps all its digits but zeros. -/
theorem enough_of_same {z d : Nat} {m : Int} (hDvd : 10 ^ z ∣ priceRaw)
    (hMax : z = n ∨ ¬10 ^ (z + 1) ∣ priceRaw) (hd : d ≤ 7) (hm : FitsInt32 m)
    (hSame : Same 10 priceRaw n m d) : Enough priceRaw n z := by
  have hLong : n ≤ z + d := by
    by_contra hMore
    refine hMax.elim (fun hEq => by omega) fun hNot => hNot (hSame.dvd (by decide) ?_)
    omega
  refine ⟨by omega, ?_⟩
  obtain ⟨q, rfl⟩ := hDvd
  rw [Int.mul_tdiv_cancel_left _ (Int.ne_of_gt (Int.pow_pos (by decide)))]
  rw [Int.mul_comm] at hSame
  have hMul := hSame.eq_mul (by decide) hLong
  have hPow : (1 : Int) ≤ 10 ^ (z + d - n) := Int.pow_pos (by decide)
  rw [hMul, FitsInt32, INT32_MIN, INT32_MAX] at hm
  rw [FitsInt32, INT32_MIN, INT32_MAX]
  rcases Int.le_total 0 q with hq | hq
  · have hLe : q ≤ q * 10 ^ (z + d - n) := le_mul_of_one_le_right hq hPow
    omega
  · have hGe : q * 10 ^ (z + d - n) ≤ q := mul_le_of_one_le_right hq hPow
    omega

theorem keeps_of_enough {z i wBase : Nat} (hRaw : priceRaw ≠ 0) (hDvd : 10 ^ z ∣ priceRaw)
    (hMax : z = n ∨ ¬10 ^ (z + 1) ∣ priceRaw) (hz : z ≤ i) (hi : i ≤ n)
    (hEnough : Enough priceRaw n i) (hFirst : ∀ j, z ≤ j → j < i → ¬Enough priceRaw n j)
    (hCode : baseCode (n - i : Nat) = some wBase) :
    Keeps priceRaw n ⟨wBase, priceRaw.tdiv (10 ^ i)⟩ := by
  obtain ⟨d, rfl⟩ := Nat.exists_eq_add_of_le' hi
  rw [Nat.add_sub_cancel] at hCode
  have hLong := hEnough.1
  have hSameFirst (m : Int) (d' : Nat) (hd : d' ≤ 7) (hm : FitsInt32 m)
      (hSame : Same 10 priceRaw (d + i) m d') : z = i := by
    by_contra hNe
    exact hFirst z (Nat.le_refl z) (by omega) (enough_of_same hDvd hMax hd hm hSame)
  refine ⟨fun hZero => ?_, fun _ => ⟨d, by omega, hCode, hEnough.2, ?_, ?_⟩⟩
  · exfalso
    obtain ⟨hBase, hVal⟩ := LPACK.mk.inj hZero
    obtain rfl : d = 0 := baseCode_inj hCode (congrArg some hBase.symm)
    rcases Nat.eq_or_lt_of_le hz with rfl | hLt
    · exact hRaw (Int.eq_zero_of_tdiv_eq_zero hDvd hVal)
    · -- the digit before the last one that is dropped would have been enough
      obtain ⟨k, rfl⟩ : ∃ k, i = k + 1 := ⟨i - 1, by omega⟩
      refine hFirst k (by omega) (by omega) ⟨by omega, ?_⟩
      rw [pow_succ, ← tdiv_tdiv _ _ (Int.pow_nonneg (by decide))] at hVal
      have hAbs : ((priceRaw.tdiv (10 ^ k)).tdiv 10).natAbs =
          (priceRaw.tdiv (10 ^ k)).natAbs / 10 := Int.natAbs_tdiv _ 10
      rw [hVal] at hAbs
      rw [FitsInt32, INT32_MIN, INT32_MAX]
      omega
  · exact (truncate_add (by decide) priceRaw d i).symm
  · intro m d' hd hm hSame
    exact (same_tdiv_iff (by decide) priceRaw d i).mpr (hSameFirst m d' hd hm hSame ▸ hDvd)

theorem removeZeros_step (hInd : ind < 17) (hDvd : 10 ^ (ind + 1) ∣ priceRaw) :
    removeZeros priceRaw (18 : Nat) 7 (rounds + 1) ind =
      removeZeros priceRaw (18 : Nat) 7 rounds (ind + 1) := by
  have hRoom : ¬ind + 1 ≥ Pow10L := by
    have hLength : Pow10L = 19 := rfl
    omega
  rw [removeZeros, if_pos (by omega), pow10_get hInd, Option.bind_eq_bind, Option.bind_some,
    if_neg (not_not.mpr (Int.tmod_eq_zero_of_dvd hDvd)), if_neg hRoom]

/-- All digits but the point are dropped, with a power that is too small. -/
theorem removeZeros_of_dvd (hDvd : 10 ^ 17 ∣ priceRaw)
    (hRange : -2 ^ 63 ≤ priceRaw ∧ priceRaw < 2 ^ 63) :
    Int64ToPrice priceRaw (18 : Nat) 7 = some ⟨('e').toNat, priceRaw.tdiv (10 ^ 15)⟩ := by
  have hSkip (k : Nat) (hk : k ≤ 17) : removeZeros priceRaw (18 : Nat) 7 19 0 =
      removeZeros priceRaw (18 : Nat) 7 (19 - k) k := by
    induction k with
    | zero => rfl
    | succ k ih =>
        obtain ⟨r, hr, hNext⟩ : ∃ r, 19 - k = r + 1 ∧ 19 - (k + 1) = r := ⟨18 - k, by omega⟩
        rw [ih (by omega), hr, hNext]
        exact removeZeros_step (by omega) (Dvd.dvd.trans (pow_dvd_pow 10 hk) hDvd)
  have hLast : (10 : Int) ^ 15 ∣ priceRaw := Dvd.dvd.trans (pow_dvd_pow 10 (by decide)) hDvd
  have hAbs : (priceRaw.tdiv (10 ^ 15)).natAbs = priceRaw.natAbs / 10 ^ 15 :=
    Int.natAbs_tdiv priceRaw (10 ^ 15)
  have hPower : Pow10[18]? = some (10 ^ 15) := by decide
  have hFits : overflows priceRaw (18 : Nat) 7 18 = some false := by
    rw [overflows, if_neg (by decide), hPower]
    refine congrArg some ?_
    rw [Bool.or_eq_false_iff, decide_eq_false_iff_not, decide_eq_false_iff_not, INT32_MAX,
      INT32_MIN]
    omega
  have hReduce : reduce priceRaw (18 : Nat) 7 Pow10L 18 =
      some ⟨('e').toNat, priceRaw.tdiv (10 ^ 15)⟩ := by
    change reduce priceRaw (18 : Nat) 7 (18 + 1) 18 = _
    rw [reduce, hFits, hPower]
    rfl
  rw [Int64ToPrice]
  change removeZeros priceRaw (18 : Nat) 7 19 0 = _
  rw [hSkip 17 (by omega)]
  change removeZeros priceRaw (18 : Nat) 7 (1 + 1) 17 = _
  rw [removeZeros, if_pos (by decide), hPower, Option.bind_eq_bind, Option.bind_some,
    if_neg (not_not.mpr (Int.tmod_eq_zero_of_dvd hLast)), if_neg (by decide), removeZeros,
    if_neg (by decide), hReduce]

end Int64ToPrice

/-- The price is kept if and only if the last power is not read. -/
theorem Int64ToPrice_keeps_iff (priceRaw : Int) (decimalPoints : Nat) (hRaw : priceRaw ≠ 0)
    (hRange : -2 ^ 63 ≤ priceRaw ∧ priceRaw < 2 ^ 63) (hPoints : decimalPoints ≤ 18) :
    (∃ price, Int64ToPrice priceRaw decimalPoints 7 = some price ∧
      Keeps priceRaw decimalPoints price) ↔ ¬(decimalPoints = 18 ∧ 10 ^ 17 ∣ priceRaw) := by
  constructor
  · rintro ⟨price, hRun, hKeeps⟩ ⟨rfl, hDvd⟩
    rw [Int64ToPrice.removeZeros_of_dvd hDvd hRange] at hRun
    obtain rfl := Option.some.inj hRun
    obtain ⟨k, rfl⟩ := hDvd
    have hSplit : (10 ^ 17 * k : Int) = 10 ^ 15 * (100 * k) := by ring
    have hVal : (10 ^ 17 * k).tdiv (10 ^ 15) = 100 * k := by
      rw [hSplit]
      exact Int.mul_tdiv_cancel_left _ (by decide)
    have hNe : (⟨('e').toNat, (10 ^ 17 * k).tdiv (10 ^ 15)⟩ : LPACK) ≠ ZeroPrice := by
      intro hZero
      have hLVal : (10 ^ 17 * k).tdiv (10 ^ 15) = 0 := (LPACK.mk.inj hZero).2
      omega
    obtain ⟨d, hd, hCode, -, hTruncated, -⟩ := hKeeps.kept hNe
    obtain rfl : d = 0 := baseCode_inj hCode rfl
    rw [hVal, truncate, pow_zero, Int.mul_one] at hTruncated
    have hAbs : ((10 ^ 17 * k).tdiv (10 ^ 18)).natAbs = (10 ^ 17 * k).natAbs / 10 ^ 18 :=
      Int.natAbs_tdiv _ (10 ^ 18)
    have hMul : (10 ^ 17 * k).natAbs = 10 ^ 17 * k.natAbs := Int.natAbs_mul (10 ^ 17) k
    have hHundred : (100 * k).natAbs = 100 * k.natAbs := Int.natAbs_mul 100 k
    have hPos : k.natAbs ≠ 0 := Int.natAbs_ne_zero.mpr fun hZero => hRaw (by rw [hZero]; rfl)
    rw [← hTruncated, hMul, hHundred] at hAbs
    omega
  · intro hPower
    obtain ⟨z, hz, hSmall, hDvd, hMax, hRun⟩ := Int64ToPrice.removeZeros_spec hPower hPoints
      (Nat.zero_le decimalPoints) (Nat.zero_le 17) (one_dvd _)
      (show decimalPoints < Pow10L + 0 from Nat.lt_succ_of_le hPoints)
    rw [Int64ToPrice, hRun]
    rcases Int64ToPrice.reduce_spec hRange hPoints hz hSmall
      (show 18 < Pow10L + z from Nat.lt_add_right z (by decide)) with hDone | hZero
    · obtain ⟨i, wBase, hLe, hi, hEnough, hFirst, hCode, hEq⟩ := hDone
      exact ⟨_, hEq, Int64ToPrice.keeps_of_enough hRaw hDvd hMax hLe hi hEnough hFirst hCode⟩
    · obtain ⟨hNot, hEq⟩ := hZero
      refine ⟨_, hEq, fun _ => Or.inl fun hFits => hNot ⟨by omega, ?_⟩, fun hNe => absurd rfl hNe⟩
      rwa [← Nat.zero_add decimalPoints, truncate_add (by decide)] at hFits

/-- A price of 0.12345678 with eight decimals loses one of them. -/
theorem Int64ToPrice_keeps_eight :
    ∃ price, Int64ToPrice 12345678 (8 : Nat) 7 = some price ∧ Keeps 12345678 8 price :=
  (Int64ToPrice_keeps_iff 12345678 8 (by decide) (by decide) (by decide)).mpr (by decide)

/-- A tenth becomes one hundred. -/
theorem Int64ToPrice_tenth :
    Int64ToPrice (10 ^ 17) (18 : Nat) 7 = some ⟨('e').toNat, 100⟩ ∧
      truncate 10 (10 ^ 17) 18 0 = 0 ∧ Same 10 (10 ^ 17) 18 1 1 ∧
      ¬∃ price, Int64ToPrice (10 ^ 17) (18 : Nat) 7 = some price ∧ Keeps (10 ^ 17) 18 price := by
  have hRun : Int64ToPrice (10 ^ 17) (18 : Nat) 7 = some ⟨('e').toNat, 100⟩ := by decide
  refine ⟨hRun, by decide, by decide, ?_⟩
  rintro ⟨price, hPrice, hKeeps⟩
  rw [hRun] at hPrice
  obtain rfl := Option.some.inj hPrice
  obtain ⟨d, hd, hCode, -, -, hSame⟩ := hKeeps.kept (by decide)
  obtain rfl : d = 0 := baseCode_inj hCode rfl
  exact absurd (hSame 1 1 (by decide) (by decide) (by decide)) (by decide)

end CppPerf.Prices
