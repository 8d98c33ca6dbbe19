import CppPerf.Memory.Flat
import CppPerf.Memory.LinkedList

/-! The segregated storage of `simplified_alloc.cpp`. The list of free chunks is
kept in the chunks themselves; the storage has the address of its head and the
size of a chunk. A loop over the list is given `fuel` for its rounds. -/
namespace CppPerf.Storage

open Heap

/-- The pointer that is stored at the start of a block. -/
def nextOf (mem : Flat) (block : UInt64) : UInt64 := mem.loadPtr block

/-- `self` is the address of `m_head`. -/
structure SimplifiedStorage where
  self : UInt64
  m_partition_size : UInt64

namespace SimplifiedStorage

variable (s : SimplifiedStorage)

def m_head (mem : Flat) : UInt64 := nextOf mem s.self

/-- The loop of `segregate` with `blocks` rounds to go, from the last chunk to
the first one. -/
def segregateLoop (mem : Flat) (iter_back end_ : UInt64) : (blocks : Nat) → Flat × UInt64
  | 0 => (mem, end_)
  | blocks + 1 =>
      segregateLoop (mem.storePtr iter_back end_) (iter_back - s.m_partition_size) iter_back blocks

/-- Link the chunks of a block, and the last one to `end_`. -/
def segregate (mem : Flat) (block size end_ : UInt64) : Flat × UInt64 :=
  let blocks := size / s.m_partition_size
  s.segregateLoop mem (block + (blocks - 1) * s.m_partition_size) end_
    blocks.toInt64.toNatClampNeg

/-- The constructor. -/
def construct (mem : Flat) (block size : UInt64) : Flat :=
  let mem := mem.storePtr s.self 0
  let (mem, head) := s.segregate mem block size (s.m_head mem)
  mem.storePtr s.self head

/-- The loop of `try_alloc_n` with `left` rounds to go: `start` afterwards, and
the last chunk of the run. -/
def tryAllocLoop (mem : Flat) (start iter : UInt64) : (left : Nat) → UInt64 × UInt64
  | 0 => (start, iter)
  | left + 1 =>
      if nextOf mem iter ≠ iter + s.m_partition_size then (iter, 0)
      else tryAllocLoop mem start (nextOf mem iter) left

def tryAllocN (mem : Flat) (start n_blocks : UInt64) : UInt64 × UInt64 :=
  if start = 0 then (start, 0)
  else s.tryAllocLoop mem start (nextOf mem start) (n_blocks - 1).toNat

/-- The loop of `alloc_n`: the cell before the run and the last chunk of it, if
there is one. -/
def allocLoop (mem : Flat) (n_blocks : UInt64) :
    (fuel : Nat) → (start : UInt64) → Option (Option (UInt64 × UInt64))
  | 0, _ => none
  | fuel + 1, start =>
      if nextOf mem start = 0 then some none
      else
        let (start, iter) := s.tryAllocN mem start n_blocks
        if iter = 0 then allocLoop mem n_blocks fuel start else some (some (start, iter))

def allocN (mem : Flat) (n_blocks : UInt64) (fuel : Nat) : Option (Flat × UInt64) :=
  (s.allocLoop mem n_blocks fuel s.self).map fun
    | none => (mem, 0)
    | some (start, iter) => (mem.storePtr start (nextOf mem iter), nextOf mem start)

/-- The last cell of the list before the address, from `start` on. -/
def findPrev (mem : Flat) (insert : UInt64) : (fuel : Nat) → (start : UInt64) → Option UInt64
  | 0, _ => none
  | fuel + 1, start =>
      if nextOf mem start ≠ 0 ∧ nextOf mem start < insert then
        findPrev mem insert fuel (nextOf mem start)
      else some start

def freeN (mem : Flat) (ptr n : UInt64) (fuel : Nat) : Option Flat :=
  if n = 0 then some mem
  else
    (findPrev mem ptr fuel s.self).map fun insertion =>
      let (mem, chunk) := s.segregate mem ptr (n * s.m_partition_size) (nextOf mem insertion)
      mem.storePtr insertion chunk

def empty (mem : Flat) : Bool := s.m_head mem == 0

/-- The loop of `num_chunks`. -/
def numChunksLoop (mem : Flat) : (fuel : Nat) → (iter count : UInt64) → Option UInt64
  | 0, _, _ => none
  | fuel + 1, iter, count =>
      if iter = 0 then some count else numChunksLoop mem fuel (nextOf mem iter) (count + 1)

def numChunks (mem : Flat) (fuel : Nat) : Option UInt64 :=
  numChunksLoop mem fuel (s.m_head mem) 0

end SimplifiedStorage
end CppPerf.Storage

/-! A storage together with its block, and the addresses of its chunks. Chunks
are numbered from the start of the block. -/
namespace CppPerf.Storage

open Heap LinkedList

/-- A storage next to the block it manages. A block ends below the last
address, and only a block without a chunk may be null. -/
structure Arena where
  storage : SimplifiedStorage
  block : UInt64
  size : UInt64
  partition_ge : 8 ≤ storage.m_partition_size.toNat
  self_ne : storage.self ≠ 0
  block_ne : storage.m_partition_size.toNat ≤ size.toNat → block ≠ 0
  block_end : block.toNat + size.toNat < 2 ^ 64
  apart : storage.self.toNat + 8 ≤ block.toNat ∨ block.toNat + size.toNat ≤ storage.self.toNat

/-- The addresses of `n` chunks in a row. -/
def chunks (partition ptr : UInt64) (n : Nat) : List UInt64 :=
  (List.range n).map fun i => ptr + UInt64.ofNat i * partition

namespace Arena

variable (a : Arena)

/-- How many chunks the block has. -/
def count : Nat := (a.size / a.storage.m_partition_size).toNat

def chunkAt (i : Nat) : UInt64 := a.block + UInt64.ofNat i * a.storage.m_partition_size

theorem count_eq : a.count = a.size.toNat / a.storage.m_partition_size.toNat := UInt64.toNat_div _ _

theorem count_mul_le : a.count * a.storage.m_partition_size.toNat ≤ a.size.toNat := by
  rw [count_eq]
  exact Nat.div_mul_le_self _ _

theorem mul_partition_le {i : Nat} (h : i ≤ a.count) :
    i * a.storage.m_partition_size.toNat ≤ a.size.toNat :=
  Nat.le_trans (Nat.mul_le_mul_right _ h) a.count_mul_le

theorem count_lt : a.count < 2 ^ 61 := by
  have hMul := a.count_mul_le
  have hEight := Nat.mul_le_mul_left a.count a.partition_ge
  have hSize := a.size.toNat_lt
  omega

theorem toNat_chunkAt {i : Nat} (h : i ≤ a.count) :
    (a.chunkAt i).toNat = a.block.toNat + i * a.storage.m_partition_size.toNat := by
  have hMul := a.mul_partition_le h
  have hEnd := a.block_end
  have hCount := a.count_lt
  have hIndex : (UInt64.ofNat i).toNat = i := UInt64.toNat_ofNat_of_lt' (by
    rw [UInt64.size]
    omega)
  rw [chunkAt, UInt64.toNat_add, UInt64.toNat_mul, hIndex, Nat.add_mod_mod, Nat.mod_eq_of_lt]
  omega

theorem chunkAt_zero : a.chunkAt 0 = a.block := by
  rw [chunkAt]
  simp

theorem chunkAt_add (i k : Nat) :
    a.chunkAt i + UInt64.ofNat k * a.storage.m_partition_size = a.chunkAt (i + k) := by
  rw [chunkAt, chunkAt, UInt64.ofNat_add, UInt64.add_mul, UInt64.add_assoc]

theorem chunkAt_succ (i : Nat) : a.chunkAt i + a.storage.m_partition_size = a.chunkAt (i + 1) := by
  rw [← chunkAt_add]
  simp

theorem chunkAt_lt_iff {i j : Nat} (hi : i ≤ a.count) (hj : j ≤ a.count) :
    a.chunkAt i < a.chunkAt j ↔ i < j := by
  have hPos : 0 < a.storage.m_partition_size.toNat := Nat.lt_of_lt_of_le (by decide) a.partition_ge
  rw [UInt64.lt_iff_toNat_lt, a.toNat_chunkAt hi, a.toNat_chunkAt hj, Nat.add_lt_add_iff_left,
    Nat.mul_lt_mul_right hPos]

theorem chunkAt_inj {i j : Nat} (hi : i ≤ a.count) (hj : j ≤ a.count)
    (h : a.chunkAt i = a.chunkAt j) : i = j := by
  have hLt := (a.chunkAt_lt_iff hi hj).not
  have hGt := (a.chunkAt_lt_iff hj hi).not
  rw [h] at hLt hGt
  have hNotLt := hLt.mp (UInt64.lt_irrefl _)
  have hNotGt := hGt.mp (UInt64.lt_irrefl _)
  omega

/-- No address up to the end of the last chunk is null. -/
theorem chunkAt_ne_zero {i : Nat} (hi : i ≤ a.count) (hPos : 0 < a.count) : a.chunkAt i ≠ 0 := by
  intro hZero
  have hNat := a.toNat_chunkAt hi
  rw [hZero, UInt64.toNat_zero] at hNat
  have hMul := a.mul_partition_le (show 1 ≤ a.count from hPos)
  rw [Nat.one_mul] at hMul
  apply a.block_ne hMul
  apply UInt64.toNat_inj.mp
  rw [UInt64.toNat_zero]
  omega

theorem chunks_chunkAt (j n : Nat) :
    chunks a.storage.m_partition_size (a.chunkAt j) n = (List.range' j n).map a.chunkAt := by
  rw [chunks, List.range'_eq_map_range, List.map_map]
  apply List.map_congr_left
  intro i _
  exact a.chunkAt_add j i

/-- A cell that can hold a link: the head, or the start of a chunk. -/
def IsCell (p : UInt64) : Prop := p = a.storage.self ∨ ∃ i, i < a.count ∧ p = a.chunkAt i

variable {a}

theorem isCell_self : a.IsCell a.storage.self := Or.inl rfl

theorem isCell_chunkAt {i : Nat} (h : i < a.count) : a.IsCell (a.chunkAt i) := Or.inr ⟨i, h, rfl⟩

/-- A chunk ends before the next one begins. -/
theorem chunkAt_end_le {i j : Nat} (hij : i < j) (hj : j ≤ a.count) :
    (a.chunkAt i).toNat + a.storage.m_partition_size.toNat ≤ (a.chunkAt j).toNat := by
  have hMul := Nat.mul_le_mul_right a.storage.m_partition_size.toNat (show i + 1 ≤ j from hij)
  rw [Nat.succ_mul] at hMul
  rw [a.toNat_chunkAt (by omega), a.toNat_chunkAt hj]
  omega

theorem apart_self_chunkAt {i : Nat} (h : i < a.count) :
    Flat.Apart a.storage.self (a.chunkAt i) := by
  have hMul := a.mul_partition_le (show i + 1 ≤ a.count from h)
  rw [Nat.succ_mul] at hMul
  have hGe := a.partition_ge
  have hApart := a.apart
  unfold Flat.Apart
  rw [a.toNat_chunkAt (Nat.le_of_lt h)]
  omega

theorem IsCell.apart {p q : UInt64} (hp : a.IsCell p) (hq : a.IsCell q) (hNe : p ≠ q) :
    Flat.Apart p q := by
  rcases hp with rfl | ⟨i, hi, rfl⟩
  · rcases hq with rfl | ⟨j, hj, rfl⟩
    · exact absurd rfl hNe
    · exact apart_self_chunkAt hj
  · rcases hq with rfl | ⟨j, hj, rfl⟩
    · exact (apart_self_chunkAt hi).symm
    · have hGe := a.partition_ge
      rcases Nat.lt_or_gt_of_ne (fun hij : i = j => hNe (by rw [hij])) with hLt | hGt
      · have hEnd := chunkAt_end_le hLt (Nat.le_of_lt hj)
        exact Or.inl (by omega)
      · have hEnd := chunkAt_end_le hGt (Nat.le_of_lt hi)
        exact Or.inr (by omega)

theorem nextOf_storePtr_self (mem : Flat) (p value : UInt64) :
    nextOf (mem.storePtr p value) p = value := mem.loadPtr_storePtr_self p value

/-- A link that is stored leaves the other cells alone. -/
theorem nextOf_storePtr_of_ne (mem : Flat) {p q : UInt64} (value : UInt64) (hp : a.IsCell p)
    (hq : a.IsCell q) (hNe : q ≠ p) : nextOf (mem.storePtr p value) q = nextOf mem q :=
  mem.loadPtr_storePtr_of_apart value (hp.apart hq hNe.symm)

theorem self_ne_chunkAt {i : Nat} (h : i < a.count) : a.storage.self ≠ a.chunkAt i := by
  intro hEq
  have hApart := apart_self_chunkAt h
  rw [← hEq] at hApart
  rcases hApart with hLe | hLe
  · omega
  · omega

end Arena
end CppPerf.Storage
