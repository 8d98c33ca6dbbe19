import CppPerf.Semantics.Vec

/-! The chunks of the small object allocator: blocks of one size in one array,
the free ones linked through their first bytes. A pointer into the array of a
chunk is its offset from `pData_`. -/
namespace CppPerf.Storage

open Indexed

/-- A byte of the array; undefined behaviour outside of it. -/
def readByte (data : Vec UInt8) (p : Nat) : Option UInt8 :=
  if p < data.size then some (data.get p) else none

def writeByte (data : Vec UInt8) (p : Nat) (byte : UInt8) : Option (Vec UInt8) :=
  if p < data.size then some (data.set p byte) else none

structure Chunk where
  pData_ : Vec UInt8
  firstAvailableBlock_ : UInt8
  blocksAvailable_ : UInt8

namespace Chunk

/-- The loop of `Init` from its `i`th round, at the offset `p`. -/
def linkBlocks (blockSize : UInt64) : Nat → Nat → Nat → Vec UInt8 → Option (Vec UInt8)
  | 0, _, _, data => some data
  | rounds + 1, i, p, data =>
      (writeByte data p (UInt8.ofNat (i + 1))).bind fun data =>
        linkBlocks blockSize rounds (i + 1) (p + blockSize.toNat) data

/-- The size of the array is computed in 64 bits. `fresh` is what the new array
happens to contain. -/
def init (fresh : Nat → UInt8) (blockSize : UInt64) (blocks : UInt8) : Option Chunk :=
  let data : Vec UInt8 := ⟨(blockSize * blocks.toUInt64).toNat, fresh⟩
  (linkBlocks blockSize blocks.toNat 0 0 data).map fun data => ⟨data, 0, blocks⟩

/-- The chunk afterwards and the block; no block is the null pointer. -/
def allocate (c : Chunk) (blockSize : UInt64) : Option (Chunk × Option Nat) :=
  if c.blocksAvailable_ = 0 then some (c, none)
  else
    let res := (c.firstAvailableBlock_.toUInt64 * blockSize).toNat
    (readByte c.pData_ res).map fun link =>
      ({ c with firstAvailableBlock_ := link, blocksAvailable_ := c.blocksAvailable_ - 1 },
        some res)

/-- An offset is not before `pData_`; what remains of the assertions is that it
is the start of a block. -/
def deallocate (c : Chunk) (p : Nat) (blockSize : UInt64) : Option Chunk :=
  if p % blockSize.toNat = 0 then
    (writeByte c.pData_ p c.firstAvailableBlock_).map fun data =>
      { pData_ := data
        firstAvailableBlock_ := UInt8.ofNat (p / blockSize.toNat)
        blocksAvailable_ := c.blocksAvailable_ + 1 }
  else none

/-- The first byte of a block: the number of the next free one. -/
def link (c : Chunk) (blockSize : UInt64) (i : UInt8) : UInt8 :=
  c.pData_.get (i.toNat * blockSize.toNat)

end Chunk

section Bytes

variable {data data' : Vec UInt8} {p : Nat} {byte : UInt8}

theorem readByte_of_lt (h : p < data.size) : readByte data p = some (data.get p) := if_pos h

theorem writeByte_of_lt (h : p < data.size) : writeByte data p byte = some (data.set p byte) :=
  if_pos h

theorem writeByte_eq_some (h : writeByte data p byte = some data') :
    p < data.size ∧ data' = data.set p byte := by
  unfold writeByte at h
  split_ifs at h with hLt
  exact ⟨hLt, (Option.some.inj h).symm⟩

end Bytes

namespace Chunk

variable {blockSize : UInt64} {rounds i p : Nat} {data data' : Vec UInt8}

theorem linkBlocks_eq_some (h : linkBlocks blockSize rounds i p data = some data') :
    data'.size = data.size ∧ (0 < rounds → p + (rounds - 1) * blockSize.toNat < data.size) := by
  induction rounds generalizing i p data with
  | zero =>
      obtain rfl := Option.some.inj h
      exact ⟨rfl, fun hPos => absurd hPos (Nat.lt_irrefl 0)⟩
  | succ rounds ih =>
      obtain ⟨data₁, hWrite, hRest⟩ := Option.bind_eq_some_iff.mp h
      obtain ⟨hLt, rfl⟩ := writeByte_eq_some hWrite
      obtain ⟨hSize, hLast⟩ := ih hRest
      refine ⟨hSize, fun _ => ?_⟩
      cases rounds with
      | zero => simpa using hLt
      | succ rounds =>
          have hEnd := hLast (Nat.succ_pos _)
          rw [Vec.size_set] at hEnd
          simp only [Nat.add_sub_cancel, Nat.add_mul, Nat.one_mul] at hEnd ⊢
          omega

/-- Where the last write is inside the array the loop is defined. It writes to
the first byte of a block the number of the next one. -/
theorem exists_linkBlocks (hPos : 0 < rounds → 0 < blockSize.toNat) (hp : p = i * blockSize.toNat)
    (hFits : p + rounds * blockSize.toNat ≤ data.size) :
    ∃ data', linkBlocks blockSize rounds i p data = some data' ∧ data'.size = data.size ∧
      (∀ q < p, data'.get q = data.get q) ∧
      ∀ j, i ≤ j → j < i + rounds → data'.get (j * blockSize.toNat) = UInt8.ofNat (j + 1) := by
  induction rounds generalizing i p data with
  | zero => exact ⟨data, rfl, rfl, fun _ _ => rfl, fun j hLow hHigh => by omega⟩
  | succ rounds ih =>
      have hSize := hPos (Nat.succ_pos _)
      rw [Nat.add_mul, Nat.one_mul] at hFits
      have hNext : p + blockSize.toNat = (i + 1) * blockSize.toNat := by
        rw [Nat.add_mul, Nat.one_mul, hp]
      have hRest : p + blockSize.toNat + rounds * blockSize.toNat ≤
          (data.set p (UInt8.ofNat (i + 1))).size := by
        rw [Vec.size_set]
        omega
      obtain ⟨data', hRun, hData, hBelow, hLinks⟩ := ih (fun _ => hSize) hNext hRest
      refine ⟨data', ?_, hData, fun q hq => ?_, fun j hLow hHigh => ?_⟩
      · rw [linkBlocks, writeByte_of_lt (by omega)]
        exact hRun
      · rw [hBelow q (by omega), Vec.get_set_of_ne _ _ (by omega)]
      · by_cases hj : j = i
        · subst j
          rw [← hp, hBelow p (by omega), Vec.get_set_self]
        · exact hLinks j (by omega) (by omega)

end Chunk
end CppPerf.Storage
