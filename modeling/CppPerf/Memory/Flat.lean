import CppPerf.Memory.LittleEndian

/-! Flat memory: a byte at every address, and pointers of eight bytes in it,
wherever they are placed. -/
namespace Heap

abbrev Flat := Nat → UInt8

namespace Flat

/-- The bytes of a range. -/
def read (mem : Flat) (address n : Nat) : List UInt8 :=
  (List.range n).map fun k => mem (address + k)

/-- Put bytes over a range. -/
def write (mem : Flat) (address : Nat) (bytes : List UInt8) : Flat := fun x =>
  if address ≤ x then bytes[x - address]?.getD (mem x) else mem x

theorem read_congr {mem mem' : Flat} {address n : Nat}
    (h : ∀ x, address ≤ x → x < address + n → mem' x = mem x) :
    mem'.read address n = mem.read address n := by
  apply List.map_congr_left
  intro k hk
  rw [List.mem_range] at hk
  exact h (address + k) (Nat.le_add_right _ _) (by omega)

/-- Bytes outside the range stay as they are. -/
theorem write_of_outside (mem : Flat) {address x : Nat} {bytes : List UInt8}
    (h : x < address ∨ address + bytes.length ≤ x) : mem.write address bytes x = mem x := by
  unfold write
  split_ifs with hx
  · have hPast : bytes[x - address]? = none := List.getElem?_eq_none (by omega)
    rw [hPast, Option.getD_none]
  · rfl

theorem read_write_self (mem : Flat) (address : Nat) (bytes : List UInt8) :
    (mem.write address bytes).read address bytes.length = bytes := by
  apply List.ext_getElem
  · rw [read, List.length_map, List.length_range]
  · intro k hk hBytes
    simp only [read, List.getElem_map, List.getElem_range]
    rw [write, if_pos (Nat.le_add_right _ _), Nat.add_sub_cancel_left,
      List.getElem?_eq_getElem hBytes, Option.getD_some]

/-- The pointer at an address. -/
def loadPtr (mem : Flat) (p : UInt64) : UInt64 := UInt64.ofNat (decodeLe (mem.read p.toNat 8))

def storePtr (mem : Flat) (p value : UInt64) : Flat := mem.write p.toNat (encodeLe 8 value.toNat)

/-- Two places for a pointer that do not overlap. -/
def Apart (p q : UInt64) : Prop := p.toNat + 8 ≤ q.toNat ∨ q.toNat + 8 ≤ p.toNat

theorem Apart.symm {p q : UInt64} (h : Apart p q) : Apart q p := Or.symm h

theorem loadPtr_congr {mem mem' : Flat} {p : UInt64}
    (h : ∀ x, p.toNat ≤ x → x < p.toNat + 8 → mem' x = mem x) : mem'.loadPtr p = mem.loadPtr p := by
  rw [loadPtr, read_congr h]
  rfl

@[simp] theorem loadPtr_storePtr_self (mem : Flat) (p value : UInt64) :
    (mem.storePtr p value).loadPtr p = value := by
  have hBytes : (mem.storePtr p value).read p.toNat 8 = encodeLe 8 value.toNat := by
    have h := mem.read_write_self p.toNat (encodeLe 8 value.toNat)
    rwa [length_encodeLe] at h
  rw [loadPtr, hBytes, decodeLe_encodeLe_of_lt value.toNat_lt, UInt64.ofNat_toNat]

theorem storePtr_of_outside (mem : Flat) (p value : UInt64) {x : Nat}
    (h : x < p.toNat ∨ p.toNat + 8 ≤ x) : mem.storePtr p value x = mem x := by
  apply write_of_outside
  rwa [length_encodeLe]

theorem loadPtr_storePtr_of_apart (mem : Flat) {p q : UInt64} (value : UInt64) (h : Apart p q) :
    (mem.storePtr p value).loadPtr q = mem.loadPtr q := by
  apply loadPtr_congr
  intro x hLow hHigh
  apply storePtr_of_outside
  rcases h with h | h
  · exact Or.inr (by omega)
  · exact Or.inl (by omega)

end Flat
end Heap
