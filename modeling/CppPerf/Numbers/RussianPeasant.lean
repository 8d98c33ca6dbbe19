import CppPerf.Numbers.MillerRabin

/-! Products and powers modulo a 64-bit number, without a wider word. Up to a
modulus of 2^63 a sum of two residues fits. -/
namespace CppPerf.Numbers

/-- No product, no sum and no doubling that the loop carries out wraps around,
the doubling of its last round included. -/
def LoopNoWrap (mod : UInt64) : Nat → UInt64 → UInt64 → UInt64 → Prop
  | 0, _, _, _ => True
  | rounds + 1, res, a, b =>
      0 < a ∧ 0 < b →
        if a ≤ 0x7FFFFFFF ∧ b ≤ 0x7FFFFFFF then
          a.toNat * b.toNat < 2 ^ 64 ∧ (a * b % mod).toNat + res.toNat < 2 ^ 64
        else
          (b &&& 1 = 1 → res.toNat + a.toNat < 2 ^ 64) ∧ 2 * a.toNat < 2 ^ 64 ∧
            LoopNoWrap mod rounds (if b &&& 1 = 1 then reduceOnce (res + a) mod else res)
              (reduceOnce (a <<< 1) mod) (b >>> 1)

/-- The same for the whole product. -/
def MulNoWrap (a b mod : UInt64) : Prop :=
  if a % mod < b % mod then LoopNoWrap mod 65 0 (b % mod) (a % mod)
  else LoopNoWrap mod 65 0 (a % mod) (b % mod)

section Product

variable {mod : UInt64}

theorem reduceOnce_lt {x : UInt64} (h : x.toNat < 2 * mod.toNat) :
    (reduceOnce x mod).toNat < mod.toNat := by
  rw [toNat_reduceOnce h]
  exact Nat.mod_lt _ (by omega)

/-- Both numbers stay residues, whatever the other factor is. -/
theorem loopNoWrap_of_le (hMod : mod.toNat ≤ 2 ^ 63) (rounds : Nat) {res a : UInt64}
    (hRes : res.toNat < mod.toNat) (ha : a.toNat < mod.toNat) (b : UInt64) :
    LoopNoWrap mod rounds res a b := by
  induction rounds generalizing res a b with
  | zero => trivial
  | succ rounds ih =>
      intro _
      have hPos : 0 < mod.toNat := Nat.zero_lt_of_lt hRes
      by_cases hSmall : a ≤ 0x7FFFFFFF ∧ b ≤ 0x7FFFFFFF
      · rw [if_pos hSmall]
        rw [UInt64.le_iff_toNat_le, UInt64.le_iff_toNat_le] at hSmall
        have hProduct : a.toNat * b.toNat < 2 ^ 64 :=
          Nat.lt_of_le_of_lt (Nat.mul_le_mul hSmall.1 hSmall.2) (by decide)
        have hRem : (a * b % mod).toNat < mod.toNat := by
          rw [UInt64.toNat_mod]
          exact Nat.mod_lt _ hPos
        exact ⟨hProduct, by omega⟩
      · rw [if_neg hSmall]
        have hDouble : 2 * a.toNat < 2 ^ 64 := by omega
        have hSum : (res + a).toNat = res.toNat + a.toNat := by
          rw [UInt64.toNat_add, Nat.mod_eq_of_lt (by omega)]
        have hRes' : (if b &&& 1 = 1 then reduceOnce (res + a) mod else res).toNat < mod.toNat := by
          split_ifs with hBit
          · exact reduceOnce_lt (by omega)
          · exact hRes
        have ha' : (reduceOnce (a <<< 1) mod).toNat < mod.toNat :=
          reduceOnce_lt (by rw [toNat_double hDouble]; omega)
        exact ⟨fun _ => by omega, hDouble, ih hRes' ha' (b >>> 1)⟩

theorem mulNoWrap_of_le (hPos : 0 < mod.toNat) (hMod : mod.toNat ≤ 2 ^ 63) (a b : UInt64) :
    MulNoWrap a b mod := by
  have hRem : ∀ x : UInt64, (x % mod).toNat < mod.toNat := by
    intro x
    rw [UInt64.toNat_mod]
    exact Nat.mod_lt _ hPos
  have hZero : (0 : UInt64).toNat < mod.toNat := hPos
  unfold MulNoWrap
  split_ifs with hLt
  · exact loopNoWrap_of_le hMod 65 hZero (hRem b) _
  · exact loopNoWrap_of_le hMod 65 hZero (hRem a) _

theorem russianPeasant_of_le (hPos : 0 < mod.toNat) (hMod : mod.toNat ≤ 2 ^ 63) (a b : UInt64) :
    ∃ r, russianPeasant_mul_mod a b mod = some r ∧
      r.toNat = a.toNat * b.toNat % mod.toNat := by
  obtain ⟨r, hRun, hValue⟩ := russianPeasant_spec a b mod
  exact ⟨r, hRun, hValue hPos (mulFits_of_le hPos hMod _ _)⟩

theorem pow_mod_of_le (hPos : 1 < mod.toNat) (hMod : mod.toNat ≤ 2 ^ 63) (base exp : UInt64) :
    ∃ r, pow_mod base exp mod = some r ∧ r.toNat = base.toNat ^ exp.toNat % mod.toNat := by
  obtain ⟨r, hRun, hValue⟩ := @pow_mod_spec mod base exp
  exact ⟨r, hRun, hValue hPos (powFits_of_le (by omega) hMod 65 _ _ _)⟩

end Product

/-- The exact product and power, and no wrap-around on the way to the product. -/
theorem mul_mod_pow_mod_exact (a b base exp mod : UInt64) (hMod : mod.toNat ≤ 2 ^ 63) :
    (1 ≤ mod.toNat →
      MulNoWrap a b mod ∧ ∃ r, russianPeasant_mul_mod a b mod = some r ∧
        r.toNat = a.toNat * b.toNat % mod.toNat) ∧
    (2 ≤ mod.toNat →
      ∃ r, pow_mod base exp mod = some r ∧ r.toNat = base.toNat ^ exp.toNat % mod.toNat) := by
  constructor
  · intro hPos
    exact ⟨mulNoWrap_of_le hPos hMod a b, russianPeasant_of_le hPos hMod a b⟩
  · intro hPos
    exact pow_mod_of_le hPos hMod base exp

theorem mul_mod_pow_mod_edge :
    (∃ r, russianPeasant_mul_mod 9223372036854775807 9223372036854775807 9223372036854775808 =
        some r ∧ r.toNat = 9223372036854775807 * 9223372036854775807 % 9223372036854775808) ∧
      ∃ r, pow_mod 3 5 9223372036854775808 = some r ∧ r.toNat = 3 ^ 5 % 9223372036854775808 := by
  obtain ⟨hMul, hPow⟩ := mul_mod_pow_mod_exact 9223372036854775807 9223372036854775807 3 5
    9223372036854775808 (by decide)
  exact ⟨(hMul (by decide)).2, hPow (by decide)⟩

end CppPerf.Numbers
