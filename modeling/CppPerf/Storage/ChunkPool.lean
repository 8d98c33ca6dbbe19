import CppPerf.Memory.CountedList
import CppPerf.Semantics.Run
import CppPerf.Storage.Chunk
import Mathlib.Data.List.Nodup
import Mathlib.Data.List.Perm.Basic

/-! A chunk as a pool of blocks, over every sequence of calls, while the user
overwrites the blocks that are out. -/
namespace CppPerf.Storage

open Indexed CountedList Transition

/-- A chunk and the blocks that its user holds. -/
structure ChunkWorld where
  chunk : Chunk
  out : List Nat

inductive ChunkCall where
  | allocate
  | deallocate (p : Nat)
  /-- The user writes to the `k`th byte of a block. -/
  | overwrite (p k : Nat) (byte : UInt8)

/-- Only blocks that are out are released or written to. -/
def ChunkWorld.step (blockSize : UInt64) : Step ChunkWorld ChunkCall
  | w, .allocate =>
      (w.chunk.allocate blockSize).map fun (chunk, res) => ⟨chunk, res.toList ++ w.out⟩
  | w, .deallocate p =>
      if p ∈ w.out then (w.chunk.deallocate p blockSize).map fun chunk => ⟨chunk, w.out.erase p⟩
      else none
  | w, .overwrite p k byte =>
      if p ∈ w.out ∧ k < blockSize.toNat then
        (writeByte w.chunk.pData_ (p + k) byte).map fun data =>
          { w with chunk := { w.chunk with pData_ := data } }
      else none

namespace ChunkWorld

/-- The offsets of all blocks. -/
def blocksOf (blockSize : UInt64) (blocks : UInt8) : List Nat :=
  (List.range blocks.toNat).map (· * blockSize.toNat)

/-- The numbers of the blocks that are not out. -/
def freeBlocks (w : ChunkWorld) (blockSize : UInt64) (blocks : UInt8) : List Nat :=
  (List.range blocks.toNat).filter fun i => i * blockSize.toNat ∉ w.out

/-- The blocks on the chain that starts at `firstAvailableBlock_`. -/
def chain (w : ChunkWorld) (blockSize : UInt64) : List Nat :=
  (follow (w.chunk.link blockSize) w.chunk.firstAvailableBlock_
    w.chunk.blocksAvailable_.toNat).map UInt8.toNat

/-- The next allocation returns no block if all are out, else one that is not. -/
def Allocates (w : ChunkWorld) (blockSize : UInt64) (blocks : UInt8) : Prop :=
  ∃ chunk res, w.chunk.allocate blockSize = some (chunk, res) ∧
    (res = none ↔ ∀ p ∈ blocksOf blockSize blocks, p ∈ w.out) ∧
    ∀ p, res = some p → p ∈ blocksOf blockSize blocks ∧ p ∉ w.out

structure IsPool (blockSize : UInt64) (blocks : UInt8) (w : ChunkWorld) : Prop where
  allocates : w.Allocates blockSize blocks
  releases : ∀ p ∈ w.out, (w.chunk.deallocate p blockSize).isSome = true
  available : w.chunk.blocksAvailable_.toNat = (w.freeBlocks blockSize blocks).length
  chain_perm : (w.chain blockSize).Perm (w.freeBlocks blockSize blocks)
  chain_nodup : (w.chain blockSize).Nodup

/-- The free blocks are linked in this order, and the other blocks are out. -/
structure Threads (blockSize : UInt64) (blocks : UInt8) (w : ChunkWorld) (free : List UInt8) :
    Prop where
  pos : 0 < blocks.toNat → 0 < blockSize.toNat
  small : blockSize.toNat * blocks.toNat < 2 ^ 64
  size : w.chunk.pData_.size = blockSize.toNat * blocks.toNat
  linked : Linked (w.chunk.link blockSize) w.chunk.firstAvailableBlock_ free
  available : w.chunk.blocksAvailable_.toNat = free.length
  conserved : (free.map (fun i => i.toNat * blockSize.toNat) ++ w.out).Perm
    (blocksOf blockSize blocks)

variable {blockSize : UInt64} {blocks : UInt8} {w w' : ChunkWorld} {free : List UInt8}

/-- Numbers of blocks are bytes. -/
theorem toNat_ofNat {j : Nat} (hj : j < blocks.toNat) : (UInt8.ofNat j).toNat = j := by
  have hByte := blocks.toNat_lt
  rw [UInt8.toNat_ofNat', Nat.mod_eq_of_lt (by omega)]

theorem nodup_blocksOf (hPos : 0 < blocks.toNat → 0 < blockSize.toNat) :
    (blocksOf blockSize blocks).Nodup := by
  refine List.Nodup.map_on ?_ List.nodup_range
  intro i hi j _ hEq
  have hLt := List.mem_range.mp hi
  exact Nat.eq_of_mul_eq_mul_right (hPos (by omega)) hEq

theorem mem_blocksOf {p : Nat} :
    p ∈ blocksOf blockSize blocks ↔ ∃ i < blocks.toNat, i * blockSize.toNat = p := by
  simp only [blocksOf, List.mem_map, List.mem_range]

namespace Threads

variable (h : Threads blockSize blocks w free)
include h

theorem nodup : (free.map (fun i => i.toNat * blockSize.toNat) ++ w.out).Nodup :=
  h.conserved.nodup_iff.mpr (nodup_blocksOf h.pos)

theorem free_nodup : free.Nodup := (List.nodup_append.mp h.nodup).1.of_map _

theorem not_out {i : UInt8} (hi : i ∈ free) : i.toNat * blockSize.toNat ∉ w.out :=
  fun hOut => List.disjoint_of_nodup_append h.nodup (List.mem_map_of_mem hi) hOut

/-- Numbers of blocks are determined by their offsets. -/
theorem lt_of_free {i : UInt8} (hi : i ∈ free) :
    0 < blockSize.toNat ∧ i.toNat < blocks.toNat := by
  have hMem := h.conserved.mem_iff.mp (List.mem_append_left _ (List.mem_map_of_mem hi))
  obtain ⟨j, hj, hEq⟩ := mem_blocksOf.mp hMem
  have hSize := h.pos (by omega)
  rw [← Nat.eq_of_mul_eq_mul_right hSize hEq]
  exact ⟨hSize, hj⟩

theorem out_eq {p : Nat} (hp : p ∈ w.out) :
    0 < blockSize.toNat ∧ ∃ i : UInt8, i.toNat < blocks.toNat ∧ p = i.toNat * blockSize.toNat := by
  have hMem := h.conserved.mem_iff.mp (List.mem_append_right _ hp)
  obtain ⟨j, hj, hEq⟩ := mem_blocksOf.mp hMem
  refine ⟨h.pos (by omega), UInt8.ofNat j, ?_, ?_⟩
  · rwa [toNat_ofNat hj]
  · rw [toNat_ofNat hj, hEq]

/-- A block lies inside the array. -/
theorem block_inside {i k : Nat} (hi : i < blocks.toNat) (hk : k < blockSize.toNat) :
    i * blockSize.toNat + k < w.chunk.pData_.size := by
  rw [h.size, Nat.mul_comm blockSize.toNat]
  have hLe := Nat.mul_le_mul_right blockSize.toNat (show i + 1 ≤ blocks.toNat by omega)
  rw [Nat.add_mul, Nat.one_mul] at hLe
  omega

theorem first_inside {i : UInt8} (hi : i ∈ free) :
    i.toNat * blockSize.toNat < w.chunk.pData_.size := by
  obtain ⟨hSize, hLt⟩ := h.lt_of_free hi
  exact h.block_inside hLt hSize

theorem mem_free_iff (i : UInt8) :
    i ∈ free ↔ i.toNat < blocks.toNat ∧ i.toNat * blockSize.toNat ∉ w.out := by
  constructor
  · intro hi
    exact ⟨(h.lt_of_free hi).2, h.not_out hi⟩
  · rintro ⟨hLt, hOut⟩
    have hMem := h.conserved.mem_iff.mpr (mem_blocksOf.mpr ⟨i.toNat, hLt, rfl⟩)
    obtain ⟨j, hj, hEq⟩ := List.mem_map.mp ((List.mem_append.mp hMem).resolve_right hOut)
    have hSame := Nat.eq_of_mul_eq_mul_right (h.lt_of_free hj).1 hEq
    rwa [← UInt8.toNat_inj.mp hSame]

theorem chain_eq : w.chain blockSize = free.map UInt8.toNat := by
  rw [chain, h.available, h.linked.follow_eq]

theorem chain_nodup : (w.chain blockSize).Nodup := by
  rw [h.chain_eq]
  exact h.free_nodup.map fun _ _ => UInt8.toNat_inj.mp

theorem chain_perm : (w.chain blockSize).Perm (w.freeBlocks blockSize blocks) := by
  rw [freeBlocks, List.perm_ext_iff_of_nodup h.chain_nodup (List.nodup_range.filter _), h.chain_eq]
  intro j
  rw [ List.mem_filter, List.mem_range, decide_eq_true_eq, List.mem_map]
  constructor
  · rintro ⟨i, hi, rfl⟩
    exact (h.mem_free_iff i).mp hi
  · rintro ⟨hLt, hOut⟩
    refine ⟨UInt8.ofNat j, (h.mem_free_iff _).mpr ?_, toNat_ofNat hLt⟩
    rw [toNat_ofNat hLt]
    exact ⟨hLt, hOut⟩

theorem allocate_nil (hEmpty : free = []) :
    w.chunk.allocate blockSize = some (w.chunk, none) := by
  have hNone : w.chunk.blocksAvailable_ = 0 := by
    apply UInt8.toNat_inj.mp
    rw [h.available, hEmpty]
    rfl
  rw [Chunk.allocate, if_pos hNone]

/-- A block of the free list is handed out. -/
theorem allocate_cons {i : UInt8} {rest : List UInt8} (hCons : free = i :: rest) :
    ∃ chunk, w.chunk.allocate blockSize = some (chunk, some (i.toNat * blockSize.toNat)) ∧
      Threads blockSize blocks ⟨chunk, i.toNat * blockSize.toNat :: w.out⟩ rest := by
  subst free
  have hFirst : w.chunk.firstAvailableBlock_ = i := h.linked.1
  have hMem : i ∈ i :: rest := List.mem_cons_self
  have hInside := h.first_inside hMem
  have hSome : w.chunk.blocksAvailable_ ≠ 0 := by
    intro hZero
    have hLength := h.available
    rw [hZero, List.length_cons] at hLength
    exact absurd hLength (by simp)
  have hRes : (w.chunk.firstAvailableBlock_.toUInt64 * blockSize).toNat =
      i.toNat * blockSize.toNat := by
    have hSmall := h.small
    rw [h.size] at hInside
    rw [hFirst, UInt64.toNat_mul, UInt8.toNat_toUInt64, Nat.mod_eq_of_lt (by omega)]
  refine ⟨{ w.chunk with
      firstAvailableBlock_ := w.chunk.link blockSize i
      blocksAvailable_ := w.chunk.blocksAvailable_ - 1 }, ?_, h.pos, h.small, h.size, ?_, ?_, ?_⟩
  · rw [Chunk.allocate, if_neg hSome]
    dsimp only
    rw [hRes, readByte_of_lt hInside]
    rfl
  · exact h.linked.2
  · have hLength := h.available
    rw [List.length_cons] at hLength
    have hOne : (1 : UInt8) ≤ w.chunk.blocksAvailable_ := by
      rw [UInt8.le_iff_toNat_le, hLength]
      exact Nat.succ_le_succ (Nat.zero_le _)
    dsimp only
    rw [UInt8.toNat_sub_of_le _ _ hOne, hLength]
    rfl
  · refine List.Perm.trans ?_ h.conserved
    exact List.perm_middle

theorem allocates : w.Allocates blockSize blocks := by
  cases hFree : free with
  | nil =>
      refine ⟨w.chunk, none, h.allocate_nil hFree, iff_of_true rfl fun p hp => ?_, by simp⟩
      have hMem := h.conserved.mem_iff.mpr hp
      rwa [hFree, List.map_nil, List.nil_append] at hMem
  | cons i rest =>
      have hMem : i ∈ free := by
        rw [hFree]
        exact List.mem_cons_self
      have hBlock : i.toNat * blockSize.toNat ∈ blocksOf blockSize blocks :=
        mem_blocksOf.mpr ⟨i.toNat, (h.lt_of_free hMem).2, rfl⟩
      obtain ⟨chunk, hRun, _⟩ := h.allocate_cons hFree
      refine ⟨chunk, _, hRun, iff_of_false (by simp) fun hAll => ?_, fun p hp => ?_⟩
      · exact h.not_out hMem (hAll _ hBlock)
      · obtain rfl := Option.some.inj hp
        exact ⟨hBlock, h.not_out hMem⟩

/-- A block that comes back is the next one to be handed out. -/
theorem deallocate {p : Nat} (hp : p ∈ w.out) :
    ∃ chunk i, w.chunk.deallocate p blockSize = some chunk ∧
      Threads blockSize blocks ⟨chunk, w.out.erase p⟩ (i :: free) := by
  obtain ⟨hSize, i, hLt, rfl⟩ := h.out_eq hp
  have hInside : i.toNat * blockSize.toNat < w.chunk.pData_.size := h.block_inside hLt hSize
  have hDiv : UInt8.ofNat (i.toNat * blockSize.toNat / blockSize.toNat) = i := by
    rw [Nat.mul_div_cancel _ hSize, UInt8.ofNat_toNat]
  refine ⟨{ pData_ := w.chunk.pData_.set (i.toNat * blockSize.toNat) w.chunk.firstAvailableBlock_
            firstAvailableBlock_ := i
            blocksAvailable_ := w.chunk.blocksAvailable_ + 1 }, i, ?_, h.pos, h.small, h.size,
    ?_, ?_, ?_⟩
  · rw [Chunk.deallocate, if_pos (Nat.mul_mod_left _ _), writeByte_of_lt hInside, Option.map_some,
      hDiv]
  · refine h.linked.push (Vec.get_set_self _ _ _) fun other hOther => ?_
    refine Vec.get_set_of_ne _ _ fun hSame => ?_
    exact h.not_out hOther (by rwa [hSame])
  · -- one block is out, so the counter does not wrap around
    have hLength := h.conserved.length_eq
    have hOut := List.length_pos_of_mem hp
    have hByte := blocks.toNat_lt
    rw [List.length_append, List.length_map, blocksOf, List.length_map, List.length_range]
      at hLength
    dsimp only
    rw [UInt8.toNat_add, h.available, List.length_cons]
    exact Nat.mod_eq_of_lt (by simp; omega)
  · refine List.Perm.trans ?_ h.conserved
    rw [List.map_cons, List.cons_append]
    refine List.Perm.trans List.perm_middle.symm ?_
    exact (List.perm_cons_erase hp).symm.append_left _

/-- The bytes of a block that is out hold no link. -/
theorem overwrite {p k : Nat} (hp : p ∈ w.out) (hk : k < blockSize.toNat) {byte : UInt8}
    {data : Vec UInt8} (hWrite : writeByte w.chunk.pData_ (p + k) byte = some data) :
    Threads blockSize blocks { w with chunk := { w.chunk with pData_ := data } } free := by
  obtain ⟨_, rfl⟩ := writeByte_eq_some hWrite
  refine ⟨h.pos, h.small, h.size, h.linked.congr fun other hOther => ?_, h.available, h.conserved⟩
  obtain ⟨hSize, i, _, rfl⟩ := h.out_eq hp
  refine Vec.get_set_of_ne _ _ fun hSame => ?_
  have hQuot := congrArg (· / blockSize.toNat) hSame
  simp only [Nat.mul_div_cancel _ hSize, Nat.mul_comm i.toNat, Nat.mul_add_div hSize,
    Nat.div_eq_of_lt hk, Nat.add_zero] at hQuot
  exact h.not_out hOther (by rwa [hQuot])

theorem isPool : IsPool blockSize blocks w where
  allocates := h.allocates
  releases p hp := by
    obtain ⟨chunk, _, hRun, _⟩ := h.deallocate hp
    rw [hRun]
    rfl
  available := by
    rw [← h.chain_perm.length_eq, h.chain_eq, List.length_map]
    exact h.available
  chain_perm := h.chain_perm
  chain_nodup := h.chain_nodup

end Threads

theorem step_threads (w : ChunkWorld) (call : ChunkCall) (w' : ChunkWorld)
    (h : ∃ free, Threads blockSize blocks w free) (hStep : step blockSize w call = some w') :
    ∃ free, Threads blockSize blocks w' free := by
  obtain ⟨free, h⟩ := h
  cases call with
  | allocate =>
      obtain ⟨⟨chunk, res⟩, hRun, rfl⟩ := Option.map_eq_some_iff.mp hStep
      cases hFree : free with
      | nil =>
          rw [h.allocate_nil hFree] at hRun
          cases hRun
          exact ⟨free, h⟩
      | cons i rest =>
          obtain ⟨chunk', hRun', hNew⟩ := h.allocate_cons hFree
          rw [hRun'] at hRun
          cases hRun
          exact ⟨rest, hNew⟩
  | deallocate p =>
      simp only [step] at hStep
      split_ifs at hStep with hp
      obtain ⟨chunk, i, hRun, hNew⟩ := h.deallocate hp
      rw [hRun] at hStep
      cases hStep
      exact ⟨i :: free, hNew⟩
  | overwrite p k byte =>
      simp only [step] at hStep
      split_ifs at hStep with hp
      obtain ⟨data, hWrite, rfl⟩ := Option.map_eq_some_iff.mp hStep
      exact ⟨free, h.overwrite hp.1 hp.2 hWrite⟩

section Init

theorem toNat_size (hSmall : blockSize.toNat * blocks.toNat < 2 ^ 64) :
    (blockSize * blocks.toUInt64).toNat = blockSize.toNat * blocks.toNat := by
  rw [UInt64.toNat_mul, UInt8.toNat_toUInt64, Nat.mod_eq_of_lt hSmall]

/-- A new chunk whose size has not wrapped around links all blocks in order. -/
theorem init_threads (fresh : Nat → UInt8) (hPos : 0 < blocks.toNat → 0 < blockSize.toNat)
    (hSmall : blockSize.toNat * blocks.toNat < 2 ^ 64) :
    ∃ chunk, Chunk.init fresh blockSize blocks = some chunk ∧
      Threads blockSize blocks ⟨chunk, []⟩ ((List.range blocks.toNat).map UInt8.ofNat) := by
  have hSize := toNat_size hSmall
  have hFits : 0 + blocks.toNat * blockSize.toNat ≤
      (⟨(blockSize * blocks.toUInt64).toNat, fresh⟩ : Vec UInt8).size := by
    dsimp only
    rw [hSize, Nat.zero_add, Nat.mul_comm]
  obtain ⟨data, hRun, hData, _, hLinks⟩ :=
    Chunk.exists_linkBlocks hPos (Nat.zero_mul _).symm hFits
  refine ⟨⟨data, 0, blocks⟩, ?_, hPos, hSmall, hData.trans hSize, ?_, ?_, ?_⟩
  · simp only [Chunk.init, hRun, Option.map_some]
  · have hNext : ∀ i < 0 + blocks.toNat,
        Chunk.link ⟨data, 0, blocks⟩ blockSize (UInt8.ofNat i) = UInt8.ofNat (i + 1) := by
      intro i hi
      rw [Nat.zero_add] at hi
      rw [Chunk.link, toNat_ofNat hi]
      exact hLinks i (Nat.zero_le _) (by omega)
    rw [List.range_eq_range']
    exact linked_map_range' hNext
  · rw [List.length_map, List.length_range]
  · rw [List.append_nil, List.map_map, blocksOf]
    refine List.Perm.of_eq (List.map_congr_left fun i hi => ?_)
    rw [Function.comp_apply, toNat_ofNat (List.mem_range.mp hi)]

/-- A size that wraps around leaves the last block outside of the array. -/
theorem init_wrapped (fresh : Nat → UInt8) (hLarge : 2 ^ 64 ≤ blockSize.toNat * blocks.toNat) :
    Chunk.init fresh blockSize blocks = none := by
  cases hRun : Chunk.init fresh blockSize blocks with
  | none => rfl
  | some chunk =>
      obtain ⟨data, hLink, _⟩ := Option.map_eq_some_iff.mp hRun
      have hBlocks : 0 < blocks.toNat := by
        by_contra hZero
        rw [Nat.eq_zero_of_not_pos hZero, Nat.mul_zero] at hLarge
        exact absurd hLarge (by decide)
      have hLast := (Chunk.linkBlocks_eq_some hLink).2 hBlocks
      have hSize := blockSize.toNat_lt
      dsimp only at hLast
      rw [UInt64.toNat_mul, UInt8.toNat_toUInt64, Nat.zero_add, Nat.sub_mul, Nat.one_mul,
        Nat.mul_comm blocks.toNat] at hLast
      omega

/-- A chunk whose `Init` was defined. -/
theorem threads_of_init {fresh : Nat → UInt8} {chunk : Chunk}
    (hRun : Chunk.init fresh blockSize blocks = some chunk) :
    ∃ free, Threads blockSize blocks ⟨chunk, []⟩ free := by
  have hSmall : blockSize.toNat * blocks.toNat < 2 ^ 64 := by
    by_contra hLarge
    rw [init_wrapped fresh (Nat.not_lt.mp hLarge)] at hRun
    cases hRun
  have hPos : 0 < blocks.toNat → 0 < blockSize.toNat := by
    intro hBlocks
    obtain ⟨data, hLink, _⟩ := Option.map_eq_some_iff.mp hRun
    have hLast := (Chunk.linkBlocks_eq_some hLink).2 hBlocks
    dsimp only at hLast
    rw [toNat_size hSmall] at hLast
    by_contra hZero
    rw [Nat.eq_zero_of_not_pos hZero, Nat.zero_mul] at hLast
    exact absurd hLast (Nat.not_lt_zero _)
  obtain ⟨chunk', hRun', hStart⟩ := init_threads fresh hPos hSmall
  obtain rfl := Option.some.inj (hRun.symm.trans hRun')
  exact ⟨_, hStart⟩

/-- `Init` is defined, and every run after it finds a pool in every state. -/
def PoolsAfterInit (fresh : Nat → UInt8) (blockSize : UInt64) (blocks : UInt8) : Prop :=
  ∃ chunk, Chunk.init fresh blockSize blocks = some chunk ∧ ∀ calls,
    Always (step blockSize) (IsPool blockSize blocks) ⟨chunk, []⟩ calls

theorem poolsAfterInit_iff (fresh : Nat → UInt8) (blockSize : UInt64) (blocks : UInt8)
    (hBlock : 1 ≤ blockSize) :
    PoolsAfterInit fresh blockSize blocks ↔ blockSize.toNat * blocks.toNat < 2 ^ 64 := by
  have hPos : 0 < blockSize.toNat := UInt64.le_iff_toNat_le.mp hBlock
  constructor
  · rintro ⟨chunk, hRun, _⟩
    by_contra hLarge
    rw [init_wrapped fresh (Nat.not_lt.mp hLarge)] at hRun
    cases hRun
  · intro hSmall
    obtain ⟨chunk, hRun, hStart⟩ := init_threads fresh (fun _ => hPos) hSmall
    refine ⟨chunk, hRun, fun calls => ?_⟩
    have hAlways := always_of_invariant step_threads calls ⟨_, hStart⟩
    exact hAlways.mono fun w hThreads => hThreads.elim fun _ h => h.isPool

theorem poolsAfterInit_three : (1 : UInt64) ≤ 4 ∧
    (PoolsAfterInit (fun _ => 0) 4 3 ↔ (4 : UInt64).toNat * (3 : UInt8).toNat < 2 ^ 64) :=
  ⟨by decide, poolsAfterInit_iff _ 4 3 (by decide)⟩

/-- `2 ^ 57` bytes for each of 128 blocks are no bytes modulo `2 ^ 64`. -/
theorem wrapped_size_overruns : (1 : UInt64) ≤ 144115188075855872 ∧ (1 : UInt8) ≤ 128 ∧
    ¬PoolsAfterInit (fun _ => 0) 144115188075855872 128 := by
  refine ⟨by decide, by decide, ?_⟩
  rintro ⟨chunk, hRun, _⟩
  rw [init_wrapped _ (by decide)] at hRun
  cases hRun

end Init
end ChunkWorld
end CppPerf.Storage
