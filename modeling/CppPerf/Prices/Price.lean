import Mathlib.Algebra.Ring.Int.Defs
import Mathlib.Algebra.Ring.Nat
import Mathlib.Tactic.Common

/-! The price functions of `bm_price.h`. Tables are read only at their indices, and
reading them elsewhere fails. -/
namespace CppPerf.Prices

/-- With the character that ends the string. -/
def szDecimalBC : List Char := ['e', 'i', 'm', 'n', 'o', 'p', 'w', 'y', 'z', Char.ofNat 0]

def maxDecimal : Nat := szDecimalBC.length - 2

def Bc2DP : List Int :=
  [-1, -1, -1, -1, 0, -1, -1, -1, 1, -1, -1, -1, 2, 3, 4, 5, -1, -1, -1, -1, -1, -1, 6, -1, 7, 8]

def Pow10 : List Int :=
  [1, 10, 100, 1000, 10000, 100000, 1000000, 10000000, 100000000, 1000000000, 10000000000,
    100000000000, 1000000000000, 10000000000000, 100000000000000, 1000000000000000,
    10000000000000000, 100000000000000000, 1000000000000000]

def Pow10L : Nat := Pow10.length

def INT32_MAX : Int := 2147483647

def INT32_MIN : Int := -2147483648

/-- A code of the number of decimals, and the price without its point. -/
structure LPACK where
  wBase : Nat
  lVal : Int
deriving DecidableEq

/-- The code of a number of decimals. -/
def baseCode (decimals : Int) : Option Nat :=
  if 0 ≤ decimals then (szDecimalBC[decimals.toNat]?).map Char.toNat else none

theorem baseCode_isSome {d : Nat} (h : d ≤ 8) : ∃ wBase, baseCode d = some wBase := by
  have hAll : ∀ d < 9, (baseCode (d : Nat)).isSome := by decide
  exact Option.isSome_iff_exists.mp (hAll d (by omega))

/-- The code tells the number of decimals. -/
theorem baseCode_inj {d e wBase : Nat} (hd : baseCode d = some wBase)
    (he : baseCode e = some wBase) : d = e := by
  have hLt (d : Nat) (h : baseCode d = some wBase) : d < 10 := by
    by_contra hLarge
    have hNone : szDecimalBC[((d : Nat) : Int).toNat]? = none :=
      List.getElem?_eq_none (Nat.not_lt.mp hLarge)
    rw [baseCode, if_pos (Int.natCast_nonneg d), hNone] at h
    cases h
  have hAll : ∀ d < 10, ∀ e < 10, baseCode (d : Nat) = baseCode (e : Nat) → d = e := by decide
  exact hAll d (hLt d hd) e (hLt e he) (hd.trans he.symm)

def ZeroPrice : LPACK := ⟨('e').toNat, 0⟩

namespace Int64ToPrice

variable (priceRaw decimalPoints : Int) (maxExp : Int)

/-- The check for an overflow. -/
def overflows (ind : Nat) : Option Bool :=
  if decimalPoints > maxExp + ind then some true
  else do
    let power ← Pow10[ind]?
    return priceRaw.tdiv power > INT32_MAX || priceRaw.tdiv power < INT32_MIN

/-- The second loop. It has fewer than `Pow10L` rounds. -/
def reduce : (rounds : Nat) → (ind : Nat) → Option LPACK
  | 0, _ => none
  | rounds + 1, ind => do
      if ← overflows priceRaw decimalPoints maxExp ind then
        let ind := ind + 1
        if ind > decimalPoints ∨ ind ≥ Pow10L then return ZeroPrice
        reduce rounds ind
      else
        let wBase ← baseCode (decimalPoints - ind)
        let power ← Pow10[ind]?
        return ⟨wBase, priceRaw.tdiv power⟩

/-- The first loop, which removes zeros. -/
def removeZeros : (rounds : Nat) → (ind : Nat) → Option LPACK
  | 0, _ => none
  | rounds + 1, ind => do
      if ind < decimalPoints then
        let power ← Pow10[ind + 1]?
        if priceRaw.tmod power ≠ 0 then reduce priceRaw decimalPoints maxExp Pow10L ind
        else
          let ind := ind + 1
          if ind ≥ Pow10L then return ZeroPrice
          removeZeros rounds ind
      else reduce priceRaw decimalPoints maxExp Pow10L ind

end Int64ToPrice

def Int64ToPrice (priceRaw decimalPoints : Int) (maxExp : Int) : Option LPACK :=
  Int64ToPrice.removeZeros priceRaw decimalPoints maxExp Pow10L 0

/-- The results of `GetInt64Price`. -/
inductive Dp where
  | OK
  | NOCHANGE
  | MODIFIED
  | OVERFLOW
  | INVALID
deriving DecidableEq

def NO_BASECODE : Nat := 65535

def pow10 (i : Int) : Option Int :=
  if 0 ≤ i then
    [1, 10, 100, 1000, 10000, 100000, 1000000, 10000000, 100000000, 1000000000][i.toNat]?
  else none

/-- `rounds` are the decimals above `minDp`, at which the loop ends. -/
def trimLoop (minDp : Int) : (rounds : Nat) → (lVal denomDp : Int) → Int × Int
  | 0, lVal, denomDp => (lVal, denomDp)
  | rounds + 1, lVal, denomDp =>
      if denomDp > minDp ∧ lVal.tmod 10 = 0 then
        trimLoop minDp rounds (lVal.tdiv 10) (denomDp - 1)
      else (lVal, denomDp)

def PriceTrimInPlace (lVal denomDp minDp : Int) : Int × Int :=
  trimLoop minDp (denomDp - minDp).toNat lVal denomDp

namespace GetInt64Price

/-- The check for an overflow. It fails if the number cannot be negated. -/
def overflows (tmpNum : Int) : Option Bool :=
  if tmpNum ≥ 0x7FFFFFFF then some true
  else if tmpNum = -2 ^ 63 then none
  else some (-tmpNum ≥ 0x7FFFFFFF)

/-- At most `maxDecimal` decimals are supported. -/
def limitDecimals (i64Val numDecimals : Int) : Option (Int × Int × Dp) :=
  if numDecimals > maxDecimal then
    if i64Val ≠ 0 then do
      let power ← pow10 ((numDecimals - maxDecimal) % 2 ^ 16)
      let rv := if i64Val.tmod power ≠ 0 then Dp.MODIFIED else Dp.NOCHANGE
      return (i64Val.tdiv power, maxDecimal, rv)
    else some (i64Val, maxDecimal, .OK)
  else some (i64Val, numDecimals, .OK)

/-- The loop that drops decimals. The first argument is `numDecimals`. -/
def avoidOverflow : Nat → (tmpNum : Int) → Dp → Option (Int × Nat × Dp)
  | 0, tmpNum, rv => do
      let _ ← overflows tmpNum
      return (tmpNum, 0, rv)
  | numDecimals + 1, tmpNum, rv => do
      if ← overflows tmpNum then
        avoidOverflow numDecimals (tmpNum.tdiv 10)
          (if tmpNum.tmod 10 = 0 then Dp.NOCHANGE else Dp.MODIFIED)
      else return (tmpNum, numDecimals + 1, rv)

def store (tmpNum : Int) (numDecimals : Nat) (rv : Dp) : Option (Dp × LPACK) := do
  if ← overflows tmpNum then return (.OVERFLOW, ⟨NO_BASECODE, 0x7FFFFFFF⟩)
  else
    let wBase ← baseCode numDecimals
    return (rv, ⟨wBase, tmpNum⟩)

/-- Trailing zeros are removed if there is a code to be changed. -/
def trim (minDp : Int) (price : LPACK) : Option LPACK :=
  let index : Int := price.wBase - ('a').toNat
  if minDp ≥ 0 ∧ index ≤ 25 then
    if index < 0 then none
    else do
      let denomDp ← Bc2DP[index.toNat]?
      let (lVal, denomDp) := PriceTrimInPlace price.lVal denomDp minDp
      let wBase ← baseCode denomDp
      return ⟨wBase, lVal⟩
  else some price

end GetInt64Price

open GetInt64Price in
def GetInt64Price (i64Val numDecimals : Int) (minDp : Int) : Option (Dp × LPACK) :=
  if numDecimals < 0 then (baseCode 0).map fun wBase => (.INVALID, ⟨wBase, 0⟩)
  else do
    let (tmpNum, numDecimals, rv) ← limitDecimals i64Val numDecimals
    let wBase ← baseCode numDecimals
    if i64Val = 0 then return (rv, ⟨wBase, 0⟩)
    let (tmpNum, numDecimals, rv) ← avoidOverflow numDecimals.toNat tmpNum rv
    let (rv, price) ← store tmpNum numDecimals rv
    let price ← trim minDp price
    return (rv, price)

end CppPerf.Prices
