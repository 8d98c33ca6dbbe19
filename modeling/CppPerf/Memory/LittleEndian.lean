import Mathlib.Algebra.Ring.Nat
import Mathlib.Data.List.Basic
import Mathlib.Tactic.Common

/-! Unsigned integers of any width in memory, least significant byte first. -/
namespace Heap

/-- The low `width` bytes of a number. -/
def encodeLe : (width value : Nat) → List UInt8
  | 0, _ => []
  | width + 1, value => UInt8.ofNat value :: encodeLe width (value / 256)

def decodeLe : List UInt8 → Nat
  | [] => 0
  | byte :: rest => byte.toNat + 256 * decodeLe rest

@[simp] theorem length_encodeLe (width value : Nat) : (encodeLe width value).length = width := by
  induction width generalizing value with
  | zero => rfl
  | succ width ih => rw [encodeLe, List.length_cons, ih]

/-- Reading back gives the value up to the width. -/
theorem decodeLe_encodeLe (width value : Nat) :
    decodeLe (encodeLe width value) = value % 256 ^ width := by
  induction width generalizing value with
  | zero => simp [encodeLe, decodeLe, Nat.mod_one]
  | succ width ih =>
      rw [encodeLe, decodeLe, ih, Nat.pow_succ', Nat.mod_mul]
      simp

theorem decodeLe_encodeLe_of_lt {width value : Nat} (h : value < 256 ^ width) :
    decodeLe (encodeLe width value) = value := by
  rw [decodeLe_encodeLe, Nat.mod_eq_of_lt h]

end Heap
