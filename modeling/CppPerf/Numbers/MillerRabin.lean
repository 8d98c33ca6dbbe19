import Mathlib.Data.List.Basic
import Mathlib.FieldTheory.Finite.Basic
import Mathlib.NumberTheory.LucasPrimality
import Mathlib.Tactic.Common
import Mathlib.Tactic.NormNum.Prime
import Mathlib.Tactic.ReduceModChar

/-! The primality test on unsigned 64-bit integers, whose arithmetic wraps
around. A loop has as many rounds as its exponent can have bits, and one to see
that it is at its end. -/
namespace CppPerf.Numbers

/-- `res - mod`, if `res` is not below it. -/
def reduceOnce (res mod : UInt64) : UInt64 := if mod ≤ res then res - mod else res

/-- The loop of `russianPeasant_mul_mod`. -/
def peasantLoop (mod : UInt64) : Nat → UInt64 → UInt64 → UInt64 → Option UInt64
  | 0, _, _, _ => none
  | rounds + 1, res, a, b =>
      if 0 < a ∧ 0 < b then
        if a ≤ 0x7FFFFFFF ∧ b ≤ 0x7FFFFFFF then some ((a * b % mod + res) % mod)
        else
          let res := if b &&& 1 = 1 then reduceOnce (res + a) mod else res
          peasantLoop mod rounds res (reduceOnce (a <<< 1) mod) (b >>> 1)
      else some res

/-- The smaller factor determines the number of rounds. -/
def russianPeasant_mul_mod (a b mod : UInt64) : Option UInt64 :=
  let a := a % mod
  let b := b % mod
  if a < b then peasantLoop mod 65 0 b a else peasantLoop mod 65 0 a b

/-- The loop of `pow_mod`. -/
def powLoop (mod : UInt64) : Nat → UInt64 → UInt64 → UInt64 → Option UInt64
  | 0, _, _, _ => none
  | rounds + 1, res, base, exp =>
      if 0 < exp then
        (if exp &&& 1 = 1 then russianPeasant_mul_mod res base mod else some res).bind fun res =>
          (russianPeasant_mul_mod base base mod).bind fun base =>
            powLoop mod rounds res base (exp >>> 1)
      else some res

def pow_mod (base exp mod : UInt64) : Option UInt64 := powLoop mod 65 1 base exp

namespace MillerRabinPrimality

/-- The squarings, at most `repeats` of them. -/
def squareLoop (num : UInt64) : Nat → UInt64 → Option Bool
  | 0, _ => some false
  | repeats + 1, x =>
      (russianPeasant_mul_mod x x num).bind fun x =>
        if x = num - 1 then some true
        else if x = 1 then some false
        else squareLoop num repeats x

/-- One round with the witness `a`. -/
def mill_rabin_test_prime (num d : UInt64) (repeats : Nat) (a : UInt64) : Option Bool :=
  (pow_mod a d num).bind fun x =>
    if x = 1 ∨ x = num - 1 then some true else squareLoop num repeats x

/-- `num - 1` without its factors of 2, and their number. -/
def oddPart : Nat → UInt64 → Nat → Option (UInt64 × Nat)
  | 0, _, _ => none
  | rounds + 1, d, power2 =>
      if d &&& 1 = 0 then oddPart rounds (d >>> 1) (power2 + 1) else some (d, power2)

/-- The rounds from the `i`th one on; `draw i` is the witness of that round. -/
def roundLoop (num d : UInt64) (repeats : Nat) (draw : Nat → UInt64) : Nat → Nat → Option Bool
  | 0, _ => some true
  | k + 1, i =>
      (mill_rabin_test_prime num d repeats (draw i)).bind fun passed =>
        if passed then roundLoop num d repeats draw k (i + 1) else some false

def miller_rabin_prime (num : UInt64) (k : Nat) (draw : Nat → UInt64) : Option Bool :=
  (oddPart 65 (num - 1) 0).bind fun (d, power2) => roundLoop num d (power2 - 1) draw k 0

def small_primes : List UInt64 := [2, 3, 5, 7, 11, 13, 17]

def small_number : UInt64 := 17 * 19

/-- The witnesses are drawn from the range of the distribution. -/
def Drawn (num : UInt64) (k : Nat) (draw : Nat → UInt64) : Prop :=
  small_number ≤ num → ∀ i < k, 2 ≤ draw i ∧ draw i ≤ num - 2 ∧ draw i ≤ 2100000000

def test (num : UInt64) (k : Nat) (draw : Nat → UInt64) : Option Bool :=
  if num < 19 then some (decide (num ∈ small_primes))
  else if small_primes.any fun p => num % p = 0 then some false
  else if num < small_number then some true
  else miller_rabin_prime num k draw

end MillerRabinPrimality
end CppPerf.Numbers

/-! No prime is rejected as long as no sum and no doubling exceeds 64 bits.
What the loops would compute in natural numbers says where that is so. -/
namespace CppPerf.Numbers

section Words

variable {x mod : UInt64}

theorem toNat_reduceOnce (h : x.toNat < 2 * mod.toNat) :
    (reduceOnce x mod).toNat = x.toNat % mod.toNat := by
  unfold reduceOnce
  split_ifs with hLe
  · rw [UInt64.le_iff_toNat_le] at hLe
    rw [UInt64.toNat_sub_of_le _ _ (UInt64.le_iff_toNat_le.mpr hLe), Nat.mod_eq_sub_mod hLe,
      Nat.mod_eq_of_lt (by omega)]
  · rw [UInt64.le_iff_toNat_le] at hLe
    rw [Nat.mod_eq_of_lt (by omega)]

theorem toNat_half (x : UInt64) : (x >>> 1).toNat = x.toNat / 2 := by
  rw [UInt64.toNat_shiftRight]
  exact Nat.shiftRight_one _

theorem toNat_double (h : 2 * x.toNat < 2 ^ 64) : (x <<< 1).toNat = 2 * x.toNat := by
  rw [UInt64.toNat_shiftLeft]
  have hShift : x.toNat <<< ((1 : UInt64).toNat % 64) = 2 * x.toNat := by
    rw [show (1 : UInt64).toNat % 64 = 1 from rfl, Nat.shiftLeft_eq, Nat.mul_comm, Nat.pow_one]
  rw [hShift, Nat.mod_eq_of_lt h]

theorem toNat_and_one (x : UInt64) : (x &&& 1).toNat = x.toNat % 2 := by
  rw [UInt64.toNat_and]
  exact Nat.and_one_is_mod _

theorem and_one_eq_iff (x : UInt64) : x &&& 1 = 1 ↔ x.toNat % 2 = 1 := by
  rw [← UInt64.toNat_inj, toNat_and_one]
  rfl

theorem and_one_eq_zero_iff (x : UInt64) : x &&& 1 = 0 ↔ x.toNat % 2 = 0 := by
  rw [← UInt64.toNat_inj, toNat_and_one]
  rfl

theorem pos_iff (x : UInt64) : 0 < x ↔ 0 < x.toNat := UInt64.lt_iff_toNat_lt

theorem toNat_pred (h : 0 < x.toNat) : (x - 1).toNat = x.toNat - 1 :=
  UInt64.toNat_sub_of_le _ _ (UInt64.le_iff_toNat_le.mpr h)

end Words

/-- No sum and no doubling of the multiplication exceeds 64 bits. -/
def LoopFits (mod : Nat) : Nat → Nat → Nat → Nat → Prop
  | 0, _, _, _ => True
  | rounds + 1, res, a, b =>
      0 < a ∧ 0 < b →
        if a ≤ 0x7FFFFFFF ∧ b ≤ 0x7FFFFFFF then a * b % mod + res < 2 ^ 64
        else (b % 2 = 1 → res + a < 2 ^ 64) ∧
          (1 < b → 2 * a < 2 ^ 64 ∧
            LoopFits mod rounds (if b % 2 = 1 then (res + a) % mod else res) (2 * a % mod) (b / 2))

def MulFits (mod a b : Nat) : Prop :=
  LoopFits mod 65 0 (max (a % mod) (b % mod)) (min (a % mod) (b % mod))

/-- The same for every product that the power is made of. -/
def PowFits (mod : Nat) : Nat → Nat → Nat → Nat → Prop
  | 0, _, _, _ => True
  | rounds + 1, res, base, exp =>
      0 < exp →
        (exp % 2 = 1 → MulFits mod res base) ∧
        (1 < exp → MulFits mod base base ∧
          PowFits mod rounds (if exp % 2 = 1 then res * base % mod else res) (base * base % mod)
            (exp / 2))

/-- The squarings up to the first one that gives `p - 1`. -/
def SquareFits (p : Nat) : Nat → Nat → Prop
  | 0, _ => True
  | repeats + 1, x => MulFits p x x ∧ (x * x % p ≠ p - 1 → SquareFits p repeats (x * x % p))

def RoundFits (p d repeats a : Nat) : Prop :=
  PowFits p 65 1 a d ∧ (a ^ d % p ≠ 1 → a ^ d % p ≠ p - 1 → SquareFits p repeats (a ^ d % p))

/-- The same for every round of the test. -/
def Fits (num k : Nat) (draw : Nat → UInt64) : Prop :=
  ∀ r d, d % 2 = 1 → num - 1 = 2 ^ r * d → ∀ i < k, RoundFits num d (r - 1) (draw i).toNat

section Multiplication

variable {mod : UInt64}

/-- One bit of the second factor. -/
theorem peasant_step (m res a b : Nat) :
    ((if b % 2 = 1 then (res + a) % m else res) + 2 * a % m * (b / 2)) % m =
      (res + a * b) % m := by
  have hTwice : 2 * a % m * (b / 2) ≡ 2 * a * (b / 2) [MOD m] :=
    (Nat.mod_modEq _ _).mul_right _
  have hSplit := Nat.div_add_mod b 2
  split_ifs with hBit
  · have hSum : res + a * b = res + a + 2 * a * (b / 2) := by
      conv_lhs => rw [← hSplit, hBit]
      ring
    rw [hSum]
    exact (Nat.mod_modEq _ _).add hTwice
  · have hSum : res + a * b = res + 2 * a * (b / 2) := by
      conv_lhs => rw [← hSplit, show b % 2 = 0 by omega]
      ring
    rw [hSum]
    exact Nat.ModEq.add_left res hTwice

theorem peasantLoop_zero (rounds : Nat) (res a : UInt64) :
    peasantLoop mod (rounds + 1) res a 0 = some res :=
  if_neg fun h => absurd h.2 (by decide)

/-- Both factors are small: the product is taken at once. -/
theorem peasant_product {res a b : UInt64}
    (hSmall : a.toNat ≤ 0x7FFFFFFF ∧ b.toNat ≤ 0x7FFFFFFF)
    (hFits : a.toNat * b.toNat % mod.toNat + res.toNat < 2 ^ 64) :
    ((a * b % mod + res) % mod).toNat = (res.toNat + a.toNat * b.toNat) % mod.toNat := by
  have hProduct : a.toNat * b.toNat < 2 ^ 64 :=
    Nat.lt_of_le_of_lt (Nat.mul_le_mul hSmall.1 hSmall.2) (by decide)
  rw [UInt64.toNat_mod, UInt64.toNat_add, UInt64.toNat_mod, UInt64.toNat_mul,
    Nat.mod_eq_of_lt hProduct, Nat.mod_eq_of_lt hFits, Nat.mod_add_mod, Nat.add_comm]

/-- The sum is taken if the lowest bit of the second factor is set. -/
theorem peasant_add {res a : UInt64} {odd : Prop} [Decidable odd] (hRes : res.toNat < mod.toNat)
    (ha : a.toNat < mod.toNat) (hFits : odd → res.toNat + a.toNat < 2 ^ 64) :
    (if odd then reduceOnce (res + a) mod else res).toNat =
      if odd then (res.toNat + a.toNat) % mod.toNat else res.toNat := by
  split_ifs with hOdd
  · have hSum : (res + a).toNat = res.toNat + a.toNat := by
      rw [UInt64.toNat_add, Nat.mod_eq_of_lt (hFits hOdd)]
    rw [toNat_reduceOnce (by omega), hSum]
  · rfl

theorem ite_mod_lt {m r s : Nat} {odd : Prop} [Decidable odd] (hr : r < m) :
    (if odd then s % m else r) < m := by
  split_ifs
  · exact Nat.mod_lt _ (Nat.zero_lt_of_lt hr)
  · exact hr

theorem peasantLoop_spec {rounds : Nat} (res a b : UInt64) (hb : b.toNat < 2 ^ rounds) :
    ∃ r, peasantLoop mod (rounds + 1) res a b = some r ∧
      (res.toNat < mod.toNat → a.toNat < mod.toNat →
        LoopFits mod.toNat (rounds + 1) res.toNat a.toNat b.toNat →
        r.toNat = (res.toNat + a.toNat * b.toNat) % mod.toNat) := by
  induction rounds generalizing res a b with
  | zero =>
      obtain rfl : b = 0 := UInt64.toNat_inj.mp (by simpa using hb)
      refine ⟨res, peasantLoop_zero 0 res a, fun hRes _ _ => ?_⟩
      rw [UInt64.toNat_zero, Nat.mul_zero, Nat.add_zero, Nat.mod_eq_of_lt hRes]
  | succ rounds ih =>
      rw [peasantLoop, LoopFits]
      simp only [pos_iff, UInt64.le_iff_toNat_le, and_one_eq_iff]
      by_cases hPos : 0 < a.toNat ∧ 0 < b.toNat
      · rw [if_pos hPos, forall_prop_of_true hPos]
        have hLimit : (0x7FFFFFFF : UInt64).toNat = 0x7FFFFFFF := rfl
        rw [hLimit]
        by_cases hSmall : a.toNat ≤ 0x7FFFFFFF ∧ b.toNat ≤ 0x7FFFFFFF
        · rw [if_pos hSmall, if_pos hSmall]
          exact ⟨_, rfl, fun _ _ hFits => peasant_product hSmall hFits⟩
        · rw [if_neg hSmall, if_neg hSmall]
          have hAdd := @peasant_add mod res a (b.toNat % 2 = 1) _
          generalize (if b.toNat % 2 = 1 then reduceOnce (res + a) mod else res) = res' at hAdd ⊢
          have hHalf : (b >>> 1).toNat < 2 ^ rounds := by
            rw [toNat_half]
            rw [Nat.pow_succ] at hb
            omega
          by_cases hOne : b.toNat = 1
          · -- the last doubling is not used
            have hDone : b >>> 1 = 0 := UInt64.toNat_inj.mp (by rw [toNat_half, hOne]; rfl)
            refine ⟨res', by rw [hDone]; exact peasantLoop_zero rounds res' _, ?_⟩
            intro hRes ha hFits
            rw [hAdd hRes ha hFits.1, hOne, if_pos rfl, Nat.mul_one]
          · obtain ⟨r, hRun, hSpec⟩ := ih res' (reduceOnce (a <<< 1) mod) (b >>> 1) hHalf
            refine ⟨r, hRun, fun hRes ha hFits => ?_⟩
            obtain ⟨hDouble, hRest⟩ := hFits.2 (by omega)
            have hTwice : (reduceOnce (a <<< 1) mod).toNat = 2 * a.toNat % mod.toNat := by
              rw [toNat_reduceOnce (by rw [toNat_double hDouble]; omega), toNat_double hDouble]
            have hRes' := hAdd hRes ha hFits.1
            rw [← hRes', ← hTwice, ← toNat_half] at hRest
            have hModPos : 0 < mod.toNat := by omega
            have hLt : res'.toNat < mod.toNat := by
              rw [hRes']
              exact ite_mod_lt hRes
            rw [hSpec hLt (by rw [hTwice]; exact Nat.mod_lt _ hModPos) hRest, hTwice, toNat_half,
              hRes', peasant_step]
      · rw [if_neg hPos]
        refine ⟨res, rfl, fun hRes _ _ => ?_⟩
        have hZero : a.toNat * b.toNat = 0 := by
          rcases Nat.eq_zero_or_pos a.toNat with ha | ha
          · rw [ha, Nat.zero_mul]
          · rw [show b.toNat = 0 by omega, Nat.mul_zero]
        rw [hZero, Nat.add_zero, Nat.mod_eq_of_lt hRes]

/-- The loop on the reduced factors, of which the second one is halved. -/
theorem peasantLoop_reduced (a b mod : UInt64) :
    ∃ r, peasantLoop mod 65 0 (a % mod) (b % mod) = some r ∧
      (0 < mod.toNat → LoopFits mod.toNat 65 0 (a.toNat % mod.toNat) (b.toNat % mod.toNat) →
        r.toNat = a.toNat * b.toNat % mod.toNat) := by
  obtain ⟨r, hRun, hValue⟩ := peasantLoop_spec 0 (a % mod) (b % mod) (b % mod).toNat_lt
  refine ⟨r, hRun, fun hPos hFits => ?_⟩
  have hRem : (a % mod).toNat < mod.toNat := by
    rw [UInt64.toNat_mod]
    exact Nat.mod_lt _ hPos
  rw [← UInt64.toNat_mod, ← UInt64.toNat_mod] at hFits
  rw [hValue hPos hRem hFits, UInt64.toNat_zero, Nat.zero_add, UInt64.toNat_mod,
    UInt64.toNat_mod, ← Nat.mul_mod]

theorem russianPeasant_spec (a b mod : UInt64) :
    ∃ r, russianPeasant_mul_mod a b mod = some r ∧
      (0 < mod.toNat → MulFits mod.toNat a.toNat b.toNat →
        r.toNat = a.toNat * b.toNat % mod.toNat) := by
  rw [russianPeasant_mul_mod, MulFits]
  split_ifs with hLt
  · rw [UInt64.lt_iff_toNat_lt, UInt64.toNat_mod, UInt64.toNat_mod] at hLt
    rw [Nat.max_eq_right (Nat.le_of_lt hLt), Nat.min_eq_left (Nat.le_of_lt hLt),
      Nat.mul_comm a.toNat]
    exact peasantLoop_reduced b a mod
  · rw [UInt64.lt_iff_toNat_lt, UInt64.toNat_mod, UInt64.toNat_mod, Nat.not_lt] at hLt
    rw [Nat.max_eq_left hLt, Nat.min_eq_right hLt]
    exact peasantLoop_reduced a b mod

end Multiplication

section Power

variable {mod : UInt64}

theorem powLoop_zero (rounds : Nat) (res base : UInt64) :
    powLoop mod (rounds + 1) res base 0 = some res :=
  if_neg (by decide)

/-- One bit of the exponent. -/
theorem pow_step (m res base exp : Nat) :
    (if exp % 2 = 1 then res * base % m else res) * (base * base % m) ^ (exp / 2) % m =
      res * base ^ exp % m := by
  have hSquare : (base * base % m) ^ (exp / 2) ≡ (base * base) ^ (exp / 2) [MOD m] :=
    (Nat.mod_modEq _ _).pow _
  have hSplit := Nat.div_add_mod exp 2
  split_ifs with hBit
  · have hPower : res * base ^ exp = res * base * (base * base) ^ (exp / 2) := by
      conv_lhs => rw [← hSplit, hBit]
      ring
    rw [hPower]
    exact (Nat.mod_modEq _ _).mul hSquare
  · have hPower : res * base ^ exp = res * (base * base) ^ (exp / 2) := by
      conv_lhs => rw [← hSplit, show exp % 2 = 0 by omega]
      ring
    rw [hPower]
    exact Nat.ModEq.mul_left res hSquare

theorem powLoop_spec {rounds : Nat} (res base exp : UInt64) (hExp : exp.toNat < 2 ^ rounds) :
    ∃ r, powLoop mod (rounds + 1) res base exp = some r ∧
      (res.toNat < mod.toNat →
        PowFits mod.toNat (rounds + 1) res.toNat base.toNat exp.toNat →
        r.toNat = res.toNat * base.toNat ^ exp.toNat % mod.toNat) := by
  induction rounds generalizing res base exp with
  | zero =>
      obtain rfl : exp = 0 := UInt64.toNat_inj.mp (by simpa using hExp)
      refine ⟨res, powLoop_zero 0 res base, fun hRes _ => ?_⟩
      rw [UInt64.toNat_zero, Nat.pow_zero, Nat.mul_one, Nat.mod_eq_of_lt hRes]
  | succ rounds ih =>
      rw [powLoop, PowFits]
      simp only [pos_iff, and_one_eq_iff]
      by_cases hPos : 0 < exp.toNat
      · rw [if_pos hPos, forall_prop_of_true hPos]
        obtain ⟨res', hNext, hNextValue⟩ : ∃ res',
            (if exp.toNat % 2 = 1 then russianPeasant_mul_mod res base mod else some res) =
              some res' ∧ (res.toNat < mod.toNat →
                (exp.toNat % 2 = 1 → MulFits mod.toNat res.toNat base.toNat) →
                res'.toNat = if exp.toNat % 2 = 1 then res.toNat * base.toNat % mod.toNat
                  else res.toNat) := by
          split_ifs with hBit
          · obtain ⟨res', hRun, hValue⟩ := russianPeasant_spec res base mod
            exact ⟨res', hRun, fun hRes hFits => hValue (by omega) (hFits hBit)⟩
          · exact ⟨res, rfl, fun _ _ => rfl⟩
        obtain ⟨square, hSquare, hSquareValue⟩ := russianPeasant_spec base base mod
        rw [hNext, Option.bind_some, hSquare, Option.bind_some]
        by_cases hOne : exp.toNat = 1
        · -- the last squaring is not used
          have hDone : exp >>> 1 = 0 := UInt64.toNat_inj.mp (by rw [toNat_half, hOne]; rfl)
          refine ⟨res', by rw [hDone]; exact powLoop_zero rounds res' _, fun hRes hFits => ?_⟩
          rw [hNextValue hRes hFits.1, hOne, if_pos rfl, Nat.pow_one]
        · have hHalf : (exp >>> 1).toNat < 2 ^ rounds := by
            rw [toNat_half]
            rw [Nat.pow_succ] at hExp
            omega
          obtain ⟨r, hRun, hSpec⟩ := ih res' square (exp >>> 1) hHalf
          refine ⟨r, hRun, fun hRes hFits => ?_⟩
          obtain ⟨hFitsSquare, hRest⟩ := hFits.2 (by omega)
          have hModPos : 0 < mod.toNat := by omega
          have hRes' := hNextValue hRes hFits.1
          have hSquare' := hSquareValue hModPos hFitsSquare
          rw [← hRes', ← hSquare', ← toNat_half] at hRest
          have hLt : res'.toNat < mod.toNat := by
            rw [hRes']
            exact ite_mod_lt hRes
          rw [hSpec hLt hRest, hSquare', toNat_half, hRes', pow_step]
      · rw [if_neg hPos]
        refine ⟨res, rfl, fun hRes _ => ?_⟩
        rw [Nat.eq_zero_of_not_pos hPos, Nat.pow_zero, Nat.mul_one, Nat.mod_eq_of_lt hRes]

theorem pow_mod_spec (base exp : UInt64) :
    ∃ r, pow_mod base exp mod = some r ∧
      (1 < mod.toNat → PowFits mod.toNat 65 1 base.toNat exp.toNat →
        r.toNat = base.toNat ^ exp.toNat % mod.toNat) := by
  obtain ⟨r, hRun, hValue⟩ := powLoop_spec 1 base exp exp.toNat_lt
  refine ⟨r, hRun, fun hMod hFits => ?_⟩
  rw [hValue hMod hFits, UInt64.toNat_one, Nat.one_mul]

end Power

section Fits

theorem loopFits_of_le {mod : Nat} (hMod : mod ≤ 2 ^ 63) (rounds : Nat) {res a : Nat}
    (hRes : res < mod) (ha : a < mod) (b : Nat) : LoopFits mod rounds res a b := by
  induction rounds generalizing res a b with
  | zero => trivial
  | succ rounds ih =>
      intro _
      have hPos : 0 < mod := Nat.zero_lt_of_lt hRes
      by_cases hSmall : a ≤ 0x7FFFFFFF ∧ b ≤ 0x7FFFFFFF
      · rw [if_pos hSmall]
        have hRem := Nat.mod_lt (a * b) hPos
        omega
      · rw [if_neg hSmall]
        exact ⟨fun _ => by omega, fun _ =>
          ⟨by omega, ih (ite_mod_lt hRes) (Nat.mod_lt _ hPos) _⟩⟩

variable {p : Nat}

theorem mulFits_of_le (hPos : 0 < p) (h : p ≤ 2 ^ 63) (a b : Nat) : MulFits p a b :=
  loopFits_of_le h _ hPos (Nat.max_lt.mpr ⟨Nat.mod_lt _ hPos, Nat.mod_lt _ hPos⟩) _

theorem powFits_of_le (hPos : 0 < p) (h : p ≤ 2 ^ 63) (rounds res base exp : Nat) :
    PowFits p rounds res base exp := by
  induction rounds generalizing res base exp with
  | zero => trivial
  | succ rounds ih =>
      exact fun _ => ⟨fun _ => mulFits_of_le hPos h _ _, fun _ =>
        ⟨mulFits_of_le hPos h _ _, ih _ _ _⟩⟩

theorem squareFits_of_le (hPos : 0 < p) (h : p ≤ 2 ^ 63) (repeats x : Nat) :
    SquareFits p repeats x := by
  induction repeats generalizing x with
  | zero => trivial
  | succ repeats ih => exact ⟨mulFits_of_le hPos h _ _, fun _ => ih _⟩

theorem fits_of_le (hPos : 0 < p) (h : p ≤ 2 ^ 63) (k : Nat) (draw : Nat → UInt64) :
    Fits p k draw :=
  fun _ _ _ _ _ _ => ⟨powFits_of_le hPos h _ _ _ _, fun _ _ => squareFits_of_le hPos h _ _⟩

end Fits

namespace MillerRabinPrimality

section Prime

variable {p : Nat}

/-- Modulo a prime, 1 has no other square roots than 1 and `p - 1`. -/
theorem sq_mod_eq_one (hPrime : p.Prime) {x : Nat} (hx : x < p) (hSquare : x * x % p = 1) :
    x = 1 ∨ x = p - 1 := by
  have hPos : 0 < x := by
    rcases Nat.eq_zero_or_pos x with hZero | hPos
    · rw [hZero, Nat.mul_zero, Nat.zero_mod] at hSquare
      exact absurd hSquare (by decide)
    · exact hPos
  have hFactor : (x - 1) * (x + 1) = x * x - 1 := by
    rw [Nat.mul_comm, ← Nat.mul_self_sub_mul_self_eq]
  have hDvd : p ∣ (x - 1) * (x + 1) := by
    rw [hFactor]
    exact (Nat.modEq_iff_dvd' (Nat.mul_pos hPos hPos)).mp
      (by rw [Nat.ModEq, hSquare, Nat.mod_eq_of_lt hPrime.one_lt])
  rcases hPrime.dvd_mul.mp hDvd with h | h
  · exact Or.inl (by have := Nat.eq_zero_of_dvd_of_lt h (by omega); omega)
  · exact Or.inr (by have := Nat.le_of_dvd (Nat.succ_pos x) h; omega)

theorem pow_pred_mod (hPrime : p.Prime) {a : Nat} (hPos : 0 < a) (ha : a < p) :
    a ^ (p - 1) % p = 1 := by
  have hCoprime : a.Coprime p := (Nat.coprime_of_lt_prime hPos.ne' ha hPrime).symm
  have hFermat := Nat.ModEq.pow_totient hCoprime
  rwa [Nat.totient_prime hPrime, Nat.ModEq, Nat.mod_eq_of_lt hPrime.one_lt] at hFermat

/-- The squarings come to `p - 1` before they come to 1. -/
theorem squareLoop_spec {num : UInt64} (hPrime : num.toNat.Prime) {repeats : Nat} {x : UInt64}
    (hx : x.toNat < num.toNat) (hOne : x.toNat ≠ 1) (hLast : x.toNat ≠ num.toNat - 1)
    (hPower : x.toNat ^ 2 ^ (repeats + 1) % num.toNat = 1)
    (hFits : SquareFits num.toNat repeats x.toNat) :
    squareLoop num repeats x = some true := by
  have hNoRoot : x.toNat * x.toNat % num.toNat ≠ 1 := fun h =>
    (sq_mod_eq_one hPrime hx h).elim hOne hLast
  induction repeats generalizing x with
  | zero => exact absurd (by rwa [Nat.zero_add, Nat.pow_one, sq] at hPower) hNoRoot
  | succ repeats ih =>
      obtain ⟨y, hMul, hValue⟩ := russianPeasant_spec x x num
      have hy := hValue hPrime.pos hFits.1
      rw [squareLoop, hMul, Option.bind_some]
      have hPred := toNat_pred hPrime.pos
      split_ifs with hIsLast hIsOne
      · rfl
      · rw [hIsOne] at hy
        exact absurd hy.symm hNoRoot
      · rw [← UInt64.toNat_inj, hPred] at hIsLast
        rw [← UInt64.toNat_inj] at hIsOne
        have hLt : y.toNat < num.toNat := by
          rw [hy]
          exact Nat.mod_lt _ hPrime.pos
        have hRest := hFits.2 (by rwa [← hy])
        rw [← hy] at hRest
        refine ih hLt hIsOne hIsLast ?_ hRest fun h =>
          (sq_mod_eq_one hPrime hLt h).elim hIsOne hIsLast
        rw [hy, ← Nat.pow_mod, ← sq, ← Nat.pow_mul, ← Nat.pow_succ']
        exact hPower

theorem oddPart_spec {rounds : Nat} {d : UInt64} (power2 : Nat) (hPos : 0 < d.toNat)
    (hd : d.toNat < 2 ^ rounds) :
    ∃ r d', oddPart rounds d power2 = some (d', power2 + r) ∧
      d.toNat = 2 ^ r * d'.toNat ∧ d'.toNat % 2 = 1 := by
  induction rounds generalizing d power2 with
  | zero =>
      rw [Nat.pow_zero] at hd
      omega
  | succ rounds ih =>
      rw [oddPart]
      split_ifs with hEven
      · rw [and_one_eq_zero_iff] at hEven
        have hHalf := toNat_half d
        rw [Nat.pow_succ] at hd
        obtain ⟨r, d', hRun, hSplit, hOdd⟩ :=
          ih (power2 + 1) (by rw [hHalf]; omega) (by rw [hHalf]; omega)
        refine ⟨r + 1, d', by rw [hRun, Nat.add_assoc, Nat.add_comm 1 r], ?_, hOdd⟩
        rw [Nat.pow_succ', Nat.mul_assoc, ← hSplit, hHalf]
        omega
      · rw [and_one_eq_zero_iff] at hEven
        exact ⟨0, d, rfl, by rw [Nat.pow_zero, Nat.one_mul], by omega⟩

variable {num d : UInt64}

/-- A round passes: `a` to the power `num - 1` is 1, and the square roots of 1 are known. -/
theorem mill_rabin_test_prime_spec (hPrime : num.toNat.Prime) {r : Nat} (hr : 0 < r)
    (hSplit : num.toNat - 1 = 2 ^ r * d.toNat) {a : UInt64} (hPos : 0 < a.toNat)
    (ha : a.toNat < num.toNat) (hFits : RoundFits num.toNat d.toNat (r - 1) a.toNat) :
    mill_rabin_test_prime num d (r - 1) a = some true := by
  obtain ⟨x, hPow, hValue⟩ := pow_mod_spec a d
  have hx := hValue hPrime.one_lt hFits.1
  have hPred := toNat_pred hPrime.pos
  rw [mill_rabin_test_prime, hPow, Option.bind_some]
  split_ifs with hDone
  · rfl
  · rw [← UInt64.toNat_inj, ← UInt64.toNat_inj, hPred] at hDone
    obtain ⟨hOne, hLast⟩ := not_or.mp hDone
    have hSquares := hFits.2 (by rwa [← hx]) (by rwa [← hx])
    rw [← hx] at hSquares
    refine squareLoop_spec hPrime (by rw [hx]; exact Nat.mod_lt _ hPrime.pos) hOne hLast ?_ hSquares
    rw [Nat.sub_add_cancel hr, hx, ← Nat.pow_mod, ← Nat.pow_mul, Nat.mul_comm, ← hSplit]
    exact pow_pred_mod hPrime hPos ha

theorem roundLoop_spec {repeats : Nat} {draw : Nat → UInt64} (k i : Nat)
    (hPass : ∀ j, i ≤ j → j < i + k →
      mill_rabin_test_prime num d repeats (draw j) = some true) :
    roundLoop num d repeats draw k i = some true := by
  induction k generalizing i with
  | zero => rfl
  | succ k ih =>
      rw [roundLoop, hPass i (Nat.le_refl i) (by omega), Option.bind_some, if_pos rfl]
      exact ih (i + 1) fun j hLe hLt => hPass j (by omega) (by omega)

theorem miller_rabin_prime_spec (hPrime : num.toNat.Prime) (hNum : small_number ≤ num) {k : Nat}
    {draw : Nat → UInt64} (hDraw : Drawn num k draw) (hFits : Fits num.toNat k draw) :
    miller_rabin_prime num k draw = some true := by
  have hLarge : 323 ≤ num.toNat := UInt64.le_iff_toNat_le.mp hNum
  have hPred := toNat_pred hPrime.pos
  have hPredTwo : (num - 2).toNat = num.toNat - 2 :=
    UInt64.toNat_sub_of_le _ _ (UInt64.le_iff_toNat_le.mpr hPrime.two_le)
  have hBits : (num - 1).toNat < 2 ^ 65 := Nat.lt_trans (num - 1).toNat_lt (by decide)
  obtain ⟨r, d', hParts, hSplit, hOdd⟩ := oddPart_spec 0 (by omega) hBits
  rw [hPred] at hSplit
  have hr : 0 < r := by
    rcases Nat.eq_zero_or_pos r with hZero | hr
    · rw [hZero, Nat.pow_zero, Nat.one_mul] at hSplit
      have := hPrime.eq_two_or_odd
      omega
    · exact hr
  rw [miller_rabin_prime, hParts, Option.bind_some, Nat.zero_add]
  refine roundLoop_spec k 0 fun i _ hi => ?_
  rw [Nat.zero_add] at hi
  obtain ⟨hTwo, hLe, -⟩ := hDraw hNum i hi
  rw [UInt64.le_iff_toNat_le] at hTwo hLe
  have hTwo' : 2 ≤ (draw i).toNat := hTwo
  rw [hPredTwo] at hLe
  exact mill_rabin_test_prime_spec hPrime hr hSplit (by omega) (by omega)
    (hFits r d'.toNat hOdd hSplit i hi)

theorem mem_small_primes (hPrime : num.toNat.Prime) (hNum : num < 19) : num ∈ small_primes := by
  rw [UInt64.lt_iff_toNat_lt] at hNum
  have hNum' : num.toNat < 19 := hNum
  rw [← UInt64.ofNat_toNat (x := num)]
  generalize num.toNat = n at hPrime hNum'
  interval_cases n
  all_goals first
    | decide
    | exact absurd hPrime (by norm_num)

/-- The trial division finds no divisor. -/
theorem not_any_dvd (hPrime : num.toNat.Prime) (hNum : ¬num < 19) :
    ¬(small_primes.any fun p => num % p = 0) = true := by
  rw [List.any_eq_true]
  rintro ⟨q, hq, hDvd⟩
  rw [decide_eq_true_eq, ← UInt64.toNat_inj, UInt64.toNat_mod] at hDvd
  have hAll : (small_primes.all fun p => 1 < p.toNat ∧ p.toNat < 19) = true := by decide
  have hRange := of_decide_eq_true (List.all_eq_true.mp hAll q hq)
  rw [UInt64.lt_iff_toNat_lt] at hNum
  rcases hPrime.eq_one_or_self_of_dvd _ (Nat.dvd_of_mod_eq_zero hDvd) with h | h
  · omega
  · exact hNum (h ▸ hRange.2)

/-- A prime passes the test as long as nothing exceeds 64 bits, which nothing does below
`2 ^ 63`. -/
theorem test_of_prime {num : UInt64} {k : Nat} {draw : Nat → UInt64}
    (hPrime : num.toNat.Prime) (hDraw : Drawn num k draw) :
    (k = 0 ∨ num.toNat ≤ 2 ^ 63 → Fits num.toNat k draw) ∧
      (Fits num.toNat k draw → test num k draw = some true) := by
  constructor
  · rintro (rfl | hNum)
    · exact fun _ _ _ _ i hi => absurd hi (Nat.not_lt_zero i)
    · exact fits_of_le hPrime.pos hNum k draw
  · intro hFits
    rw [test]
    split_ifs with hTiny hDvd hSmall
    · rw [decide_eq_true (mem_small_primes hPrime hTiny)]
    · exact absurd hDvd (not_any_dvd hPrime hTiny)
    · rfl
    · exact miller_rabin_prime_spec hPrime (UInt64.not_lt.mp hSmall) hDraw hFits

theorem test_331 : test 331 2 (fun i => i.toUInt64 + 2) = some true := by
  have hPrime : (331 : UInt64).toNat.Prime := show Nat.Prime 331 by norm_num
  have hDraw : Drawn 331 2 fun i => i.toUInt64 + 2 := fun _ => by decide
  obtain ⟨hFits, hTest⟩ := test_of_prime hPrime hDraw
  exact hTest (hFits (Or.inr (by decide)))

end Prime

section Goldilocks

/-- The prime divisors of `2 ^ 64 - 2 ^ 32`. -/
theorem eq_fermat_of_dvd {q : Nat} (hq : q.Prime) (h : q ∣ 18446744069414584320) :
    q = 2 ∨ q = 3 ∨ q = 5 ∨ q = 17 ∨ q = 257 ∨ q = 65537 := by
  have hEq : ∀ m : Nat, m.Prime → q ∣ m → q = m := fun m hm hDvd =>
    (Nat.prime_dvd_prime_iff_eq hq hm).mp hDvd
  have hSplit : 18446744069414584320 = 2 ^ 32 * (3 * (5 * (17 * (257 * 65537)))) := by norm_num
  rw [hSplit, hq.dvd_mul, hq.dvd_mul, hq.dvd_mul, hq.dvd_mul, hq.dvd_mul] at h
  exact h.imp (fun h => hEq 2 (by norm_num) (hq.dvd_of_dvd_pow h)) <|
    Or.imp (hEq 3 (by norm_num)) <| Or.imp (hEq 5 (by norm_num)) <|
    Or.imp (hEq 17 (by norm_num)) <| Or.imp (hEq 257 (by norm_num)) (hEq 65537 (by norm_num))

/-- 7 generates the multiplicative group. -/
theorem prime_goldilocks : (18446744069414584321 : Nat).Prime := by
  apply lucas_primality 18446744069414584321 (7 : ZMod 18446744069414584321)
  · norm_num
    reduce_mod_char
  · intro q hq hDvd
    rcases eq_fermat_of_dvd hq hDvd with rfl | rfl | rfl | rfl | rfl | rfl
    all_goals norm_num
    all_goals reduce_mod_char
    all_goals decide

/-- The squarings modulo `2 ^ 64 - 2 ^ 32 + 1` lose a bit. -/
theorem test_goldilocks :
    (18446744069414584321 : UInt64).toNat.Prime ∧
      Drawn 18446744069414584321 1 (fun _ => 2) ∧
      test 18446744069414584321 1 (fun _ => 2) = some false :=
  ⟨prime_goldilocks, fun _ => by decide, by decide +kernel⟩

end Goldilocks
end MillerRabinPrimality
end CppPerf.Numbers
