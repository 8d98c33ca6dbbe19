import CppPerf.Memory.IntervalPool
import CppPerf.Semantics.Run
import CppPerf.Storage.SimplifiedStorageSpec

/-! Programs that allocate, write into what they were given, and free. The
storage and its memory represent a pool of intervals, which conserves chunks. -/
namespace CppPerf.Storage.Arena

open Heap IntervalPool LinkedList Transition

/-- The memory, and the live allocations: a pointer and the number of chunks. -/
structure World where
  mem : Flat
  live : List (UInt64 × UInt64)

inductive Call where
  | allocN (n_blocks : UInt64)
  | freeN (ptr n : UInt64)
  | write (address : Nat) (byte : UInt8)

variable (a : Arena)

/-- At least one chunk is asked for; what is freed is live, with its length, or
has no length; bytes are written into live allocations only. -/
def Permitted (w : World) : Call → Prop
  | .allocN n_blocks => n_blocks ≠ 0
  | .freeN ptr n => n = 0 ∨ (ptr, n) ∈ w.live
  | .write address _ => ∃ r ∈ w.live, r.1.toNat ≤ address ∧
      address < r.1.toNat + r.2.toNat * a.storage.m_partition_size.toNat

instance (w : World) (call : Call) : Decidable (a.Permitted w call) :=
  match call with
  | .allocN n_blocks => inferInstanceAs (Decidable (n_blocks ≠ 0))
  | .freeN ptr n => inferInstanceAs (Decidable (n = 0 ∨ (ptr, n) ∈ w.live))
  | .write address _ => inferInstanceAs (Decidable (∃ r ∈ w.live, r.1.toNat ≤ address ∧
      address < r.1.toNat + r.2.toNat * a.storage.m_partition_size.toNat))

/-- What a permitted call does. -/
def perform (fuel : Nat) (w : World) : Call → Option World
  | .allocN n_blocks =>
      (a.storage.allocN w.mem n_blocks fuel).map fun (mem, ret) =>
        ⟨mem, if ret = 0 then w.live else (ret, n_blocks) :: w.live⟩
  | .freeN ptr n =>
      (a.storage.freeN w.mem ptr n fuel).map fun mem =>
        ⟨mem, if n = 0 then w.live else w.live.erase (ptr, n)⟩
  | .write address byte => some ⟨w.mem.write address [byte], w.live⟩

def step (fuel : Nat) : Step World Call := fun w call =>
  if a.Permitted w call then a.perform fuel w call else none

/-- After the constructor, on any memory. -/
def initial (mem : Flat) : World := ⟨a.storage.construct mem a.block a.size, []⟩

/-- The `size / partition` chunks of the block. -/
def allChunks : List UInt64 := chunks a.storage.m_partition_size a.block a.count

def chunksOf (r : UInt64 × UInt64) : List UInt64 :=
  chunks a.storage.m_partition_size r.1 r.2.toNat

/-- Two chunks that do not overlap. -/
def Separate (p q : UInt64) : Prop :=
  p.toNat + a.storage.m_partition_size.toNat ≤ q.toNat ∨
    q.toNat + a.storage.m_partition_size.toNat ≤ p.toNat

def InsideBlock (p : UInt64) : Prop :=
  a.block.toNat ≤ p.toNat ∧
    p.toNat + a.storage.m_partition_size.toNat ≤ a.block.toNat + a.size.toNat

/-- The free list is in order; it and the live allocations are the chunks of
the block, each of them once; without live allocations it is the list of the
constructor. -/
def Conserves (w : World) : Prop :=
  ∃ free, IsList (nextOf w.mem) 0 (a.storage.m_head w.mem) free ∧ free.Pairwise (· < ·) ∧
    (free ++ w.live.flatMap a.chunksOf).Perm a.allChunks ∧
    (free ++ w.live.flatMap a.chunksOf).Pairwise a.Separate ∧
    (∀ p ∈ free ++ w.live.flatMap a.chunksOf, a.InsideBlock p) ∧
    (w.live = [] → free = a.allChunks)

/-- Every permitted call returns. -/
def Responds (fuel : Nat) (w : World) : Prop :=
  ∀ call, a.Permitted w call → (a.step fuel w call).isSome

/-- The allocation that the pool keeps as an interval of numbers. -/
def allocation (r : Nat × Nat) : UInt64 × UInt64 := (a.chunkAt r.1, UInt64.ofNat r.2)

/-- The memory and the live allocations stand for the pool. -/
structure Represents (w : World) (pool : Pool a.count) : Prop where
  reaches : a.Reaches w.mem (a.storage.m_head w.mem) pool.free
  live_eq : w.live = pool.live.map a.allocation
  live_pos : ∀ r ∈ pool.live, 0 < r.2

variable {a} {w w' : World} {pool : Pool a.count} {fuel : Nat}

/-- Equal images come from equal elements, so one of them is erased. -/
theorem map_erase_of_injOn {α β : Type*} [BEq α] [LawfulBEq α] [BEq β] [LawfulBEq β] {f : α → β}
    {l : List α} {x : α} (hInj : ∀ y ∈ l, f y = f x → y = x) :
    (l.erase x).map f = (l.map f).erase (f x) := by
  induction l with
  | nil => rfl
  | cons y rest ih =>
      have hRest := ih fun z hz => hInj z (List.mem_cons_of_mem _ hz)
      by_cases hy : y = x
      · subst hy
        rw [List.erase_cons_head, List.map_cons, List.erase_cons_head]
      · have hImage : f y ≠ f x := fun hEq => hy (hInj y List.mem_cons_self hEq)
        rw [List.erase_cons_tail (by simpa using hy), List.map_cons, List.map_cons, hRest,
          List.erase_cons_tail (by simpa using hImage)]

theorem Represents.live_le (h : a.Represents w pool) {r : Nat × Nat} (hr : r ∈ pool.live) :
    r.1 + r.2 ≤ a.count := pool.live_le_count hr (h.live_pos r hr)

theorem Represents.toNat_length (h : a.Represents w pool) {r : Nat × Nat} (hr : r ∈ pool.live) :
    (UInt64.ofNat r.2).toNat = r.2 := by
  have hLe := h.live_le hr
  have hCount := a.count_lt
  exact UInt64.toNat_ofNat_of_lt (show r.2 < 2 ^ 64 by omega)

theorem Represents.allocation_inj (h : a.Represents w pool) {r r' : Nat × Nat} (hr : r ∈ pool.live)
    (hr' : r' ∈ pool.live) (hEq : a.allocation r = a.allocation r') : r = r' := by
  obtain ⟨hFirst, hLength⟩ := Prod.mk.inj hEq
  have hLe := h.live_le hr
  have hLe' := h.live_le hr'
  have hLengthNat := congrArg UInt64.toNat hLength
  rw [h.toNat_length hr, h.toNat_length hr'] at hLengthNat
  exact Prod.ext (a.chunkAt_inj (by omega) (by omega) hFirst) hLengthNat

/-- The chunks of the allocations are the numbers of the intervals. -/
theorem Represents.chunks_eq (h : a.Represents w pool) :
    w.live.flatMap a.chunksOf = (pool.live.flatMap interval).map a.chunkAt := by
  rw [h.live_eq, List.flatMap_map, List.map_flatMap]
  apply List.flatMap_congr
  intro r hr
  rw [chunksOf, allocation, h.toNat_length hr, a.chunks_chunkAt]
  rfl

theorem allChunks_eq : a.allChunks = (List.range a.count).map a.chunkAt := by
  rw [allChunks, ← a.chunkAt_zero, a.chunks_chunkAt, List.range_eq_range']

theorem Represents.conserves (h : a.Represents w pool) : a.Conserves w := by
  have hBelow : ∀ x ∈ pool.free ++ pool.live.flatMap interval, x < a.count :=
    fun x hx => List.mem_range.mp (pool.conserved.mem_iff.mp hx)
  have hMap : pool.free.map a.chunkAt ++ w.live.flatMap a.chunksOf =
      (pool.free ++ pool.live.flatMap interval).map a.chunkAt := by
    rw [h.chunks_eq, List.map_append]
  refine ⟨pool.free.map a.chunkAt, h.reaches, ?_, ?_, ?_, ?_, ?_⟩
  · rw [List.pairwise_map]
    refine pool.sorted.imp_of_mem fun {x y} hx hy hLt => ?_
    have hx' := pool.lt_count_of_mem_free hx
    have hy' := pool.lt_count_of_mem_free hy
    exact (a.chunkAt_lt_iff (Nat.le_of_lt hx') (Nat.le_of_lt hy')).mpr hLt
  · rw [hMap, allChunks_eq]
    exact pool.conserved.map _
  · rw [hMap, List.pairwise_map]
    refine List.Pairwise.imp_of_mem (fun {x y} hx hy hNe => ?_) pool.nodup
    have hx' := Nat.le_of_lt (hBelow x hx)
    have hy' := Nat.le_of_lt (hBelow y hy)
    rcases Nat.lt_or_gt_of_ne hNe with hLt | hGt
    · exact Or.inl (chunkAt_end_le hLt hy')
    · exact Or.inr (chunkAt_end_le hGt hx')
  · rw [hMap]
    intro p hp
    obtain ⟨x, hx, rfl⟩ := List.mem_map.mp hp
    have hEnd := chunkAt_end_le (Nat.lt_succ_self x) (hBelow x hx)
    have hMul := a.mul_partition_le (hBelow x hx)
    rw [a.toNat_chunkAt (hBelow x hx)] at hEnd
    refine ⟨?_, by omega⟩
    rw [a.toNat_chunkAt (Nat.le_of_lt (hBelow x hx))]
    omega
  · intro hNone
    have hLive : pool.live = [] := List.map_eq_nil_iff.mp (h.live_eq.symm.trans hNone)
    rw [pool.free_eq_range hLive, allChunks_eq]

theorem represents_initial (mem : Flat) : a.Represents (a.initial mem) (Pool.full a.count) :=
  ⟨construct_spec mem, rfl, fun _ hr => absurd hr List.not_mem_nil⟩

theorem Represents.allocN_spec (h : a.Represents w pool) (hFuel : a.count < fuel)
    {n_blocks : UInt64} (hBlocks : n_blocks ≠ 0) :
    ∃ w' pool', a.perform fuel w (.allocN n_blocks) = some w' ∧ a.Represents w' pool' := by
  have hPos : 0 < n_blocks.toNat := by
    apply Nat.pos_of_ne_zero
    intro hZero
    exact hBlocks (UInt64.toNat_inj.mp hZero)
  rcases Arena.allocN_spec hPos (fun _ => pool.lt_count_of_mem_free) pool.sorted h.reaches
      (Nat.lt_of_le_of_lt pool.length_free_le hFuel) with
    ⟨hNone, _⟩ | ⟨front, j, back, mem', hSplit, hSome, hList, _⟩
  · refine ⟨w, pool, ?_, h⟩
    simp only [perform, hNone, Option.map_some, ↓reduceIte]
  · have hFirst : j ∈ pool.free := by
      rw [hSplit]
      apply List.mem_append_right
      exact List.mem_append_left _ (List.mem_range'_1.mpr ⟨Nat.le_refl j, by omega⟩)
    have hBelow := pool.lt_count_of_mem_free hFirst
    have hRet : a.chunkAt j ≠ 0 := a.chunkAt_ne_zero (Nat.le_of_lt hBelow) (by omega)
    refine ⟨⟨mem', (a.chunkAt j, n_blocks) :: w.live⟩, pool.take hSplit, ?_, hList, ?_, ?_⟩
    · simp only [perform, hSome, Option.map_some, if_neg hRet]
    · simp only [Pool.take, List.map_cons, allocation, UInt64.ofNat_toNat, h.live_eq]
    · intro r hr
      rcases List.mem_cons.mp hr with rfl | hOld
      · exact hPos
      · exact h.live_pos r hOld

theorem Represents.freeN_spec (h : a.Represents w pool) (hFuel : a.count < fuel) {ptr n : UInt64}
    (hLive : n = 0 ∨ (ptr, n) ∈ w.live) :
    ∃ w' pool', a.perform fuel w (.freeN ptr n) = some w' ∧ a.Represents w' pool' := by
  by_cases hn : n = 0
  · subst hn
    exact ⟨w, pool, rfl, h⟩
  · have hMem := hLive.resolve_left hn
    rw [h.live_eq] at hMem
    obtain ⟨⟨j, k⟩, hr, hEq⟩ := List.mem_map.mp hMem
    obtain ⟨rfl, rfl⟩ := Prod.mk.inj hEq
    have hLength : (UInt64.ofNat k).toNat = k := h.toNat_length hr
    have hLe : j + k ≤ a.count := h.live_le hr
    obtain ⟨front, back, mem', hSplit, hFront, hBack, hFree, hList⟩ :=
      Arena.freeN_spec (j := j) hn (by rw [hLength]; exact hLe)
        (fun x hx => ⟨pool.lt_count_of_mem_free hx, by
          rw [hLength]
          exact pool.free_outside_live hr hx⟩)
        pool.sorted h.reaches (Nat.lt_of_le_of_lt pool.length_free_le hFuel)
    rw [hLength] at hList
    refine ⟨⟨mem', w.live.erase (a.chunkAt j, UInt64.ofNat k)⟩,
      pool.put hr hSplit hFront hBack, ?_, hList, ?_, ?_⟩
    · simp only [perform, hFree, Option.map_some, if_neg hn]
    · change w.live.erase (a.allocation (j, k)) = (pool.live.erase (j, k)).map a.allocation
      rw [h.live_eq, map_erase_of_injOn]
      exact fun r hOther hSame => h.allocation_inj hOther hr hSame
    · exact fun r hOld => h.live_pos r (List.mem_of_mem_erase hOld)

/-- Bytes of a live allocation are not part of the free list. -/
theorem Represents.write_spec (h : a.Represents w pool) {address : Nat} {byte : UInt8}
    (hInside : a.Permitted w (.write address byte)) :
    ∃ w' pool', a.perform fuel w (.write address byte) = some w' ∧ a.Represents w' pool' := by
  obtain ⟨r', hr', hLow, hHigh⟩ := hInside
  rw [h.live_eq] at hr'
  obtain ⟨r, hr, rfl⟩ := List.mem_map.mp hr'
  have hLe := h.live_le hr
  have hLength := h.toNat_length hr
  have hStart := a.toNat_chunkAt (show r.1 ≤ a.count by omega)
  have hEnd := a.toNat_chunkAt hLe
  simp only [allocation, hLength] at hLow hHigh
  rw [Nat.add_mul] at hEnd
  -- The byte lies before or behind every place the storage reads a link from.
  have hSame : ∀ p : UInt64, (address < p.toNat ∨ p.toNat + 8 ≤ address) →
      nextOf (w.mem.write address [byte]) p = nextOf w.mem p := by
    intro p hApart
    apply Flat.loadPtr_congr
    intro x hLow' hHigh'
    apply Flat.write_of_outside
    rw [List.length_singleton]
    omega
  have hSelf :
      nextOf (w.mem.write address [byte]) a.storage.self = nextOf w.mem a.storage.self := by
    apply hSame
    have hApart := a.apart
    have hMul := a.mul_partition_le hLe
    rw [Nat.add_mul] at hMul
    omega
  have hFree : ∀ p ∈ pool.free.map a.chunkAt,
      nextOf (w.mem.write address [byte]) p = nextOf w.mem p := by
    intro p hp
    obtain ⟨x, hx, rfl⟩ := List.mem_map.mp hp
    have hBelow := pool.lt_count_of_mem_free hx
    have hGe := a.partition_ge
    apply hSame
    rcases pool.free_outside_live hr hx with hBefore | hBehind
    · have hGap := chunkAt_end_le hBefore (show r.1 ≤ a.count by omega)
      omega
    · have hMul := Nat.mul_le_mul_right a.storage.m_partition_size.toNat hBehind
      rw [Nat.add_mul] at hMul
      rw [a.toNat_chunkAt (Nat.le_of_lt hBelow)]
      omega
  refine ⟨_, pool, rfl, ?_, h.live_eq, h.live_pos⟩
  have hOld := h.reaches
  unfold Reaches SimplifiedStorage.m_head at *
  rw [hSelf]
  exact hOld.congr hFree

/-- A permitted call returns, and leaves memory that stands for a pool. -/
theorem Represents.step_spec (h : a.Represents w pool) (hFuel : a.count < fuel) {call : Call}
    (hPermitted : a.Permitted w call) :
    ∃ w' pool', a.step fuel w call = some w' ∧ a.Represents w' pool' := by
  rw [step, if_pos hPermitted]
  cases call with
  | allocN n_blocks => exact h.allocN_spec hFuel hPermitted
  | freeN ptr n => exact h.freeN_spec hFuel hPermitted
  | write address byte => exact h.write_spec hPermitted

/-- Every state that is reached stands for a pool. -/
theorem always_represents (hFuel : a.count < fuel) (mem : Flat) (calls : List Call) :
    Always (a.step fuel) (fun w => ∃ pool, a.Represents w pool) (a.initial mem) calls := by
  refine always_of_invariant ?_ calls ⟨Pool.full a.count, represents_initial mem⟩
  intro w call w' hInv hStep
  obtain ⟨pool, h⟩ := hInv
  have hPermitted : a.Permitted w call := by
    by_contra hNot
    rw [step, if_neg hNot] at hStep
    cases hStep
  obtain ⟨w₁, pool', hRun, hNew⟩ := h.step_spec hFuel hPermitted
  obtain rfl : w₁ = w' := Option.some.inj (hRun.symm.trans hStep)
  exact ⟨pool', hNew⟩

/-- Along every run the free chunks and the live allocations are the chunks of
the block, and every permitted call returns. -/
theorem always_conserves (a : Arena) {fuel : Nat} (hFuel : a.count < fuel) (mem : Flat)
    (calls : List Call) :
    Always (a.step fuel) (fun w => a.Conserves w ∧ a.Responds fuel w) (a.initial mem) calls := by
  refine (always_represents hFuel mem calls).mono fun w hInv => ?_
  obtain ⟨pool, h⟩ := hInv
  refine ⟨h.conserves, fun call hPermitted => ?_⟩
  obtain ⟨w', _, hRun, _⟩ := h.step_spec hFuel hPermitted
  rw [hRun]
  rfl

/-- Three chunks of 32 bytes and four bytes to spare. -/
def threeChunks : Arena where
  storage := ⟨8, 32⟩
  block := 64
  size := 100
  partition_ge := by decide
  self_ne := by decide
  block_ne := fun _ => by decide
  block_end := by decide
  apart := by decide

theorem always_conserves_threeChunks :
    Always (threeChunks.step 4) (fun w => threeChunks.Conserves w ∧ threeChunks.Responds 4 w)
      (threeChunks.initial fun _ => 0)
      [.allocN 2, .allocN 1, .write 70 255, .freeN 64 2, .freeN 0 0, .freeN 128 1] :=
  always_conserves threeChunks (by decide) (fun _ => 0) _

/-- The run of these calls does not end early, and frees everything. -/
example : (run (threeChunks.step 4) (threeChunks.initial fun _ => 0)
    [.allocN 2, .allocN 1, .write 70 255, .freeN 64 2, .freeN 0 0, .freeN 128 1]).any
      (fun w => w.live.isEmpty) = true := by
  decide +kernel

end CppPerf.Storage.Arena

/-! Which chunks an allocation takes, in terms of addresses. -/
namespace CppPerf.Storage.Arena

open Heap IntervalPool LinkedList Transition

variable (a : Arena)

/-- The `n` chunks in a row from `p` on are free. -/
def RunAt (free : List UInt64) (n : Nat) (p : UInt64) : Prop :=
  ∀ q ∈ chunks a.storage.m_partition_size p n, q ∈ free

/-- The chunks of the lowest run are cut out of the free list, and nothing else
is. Without a run the memory stays as it is. -/
def TakesLowestRun (fuel : Nat) (w : World) (n_blocks : UInt64) : Prop :=
  ∃ free, IsList (nextOf w.mem) 0 (a.storage.m_head w.mem) free ∧
    ((∃ mem' p front back, a.storage.allocN w.mem n_blocks fuel = some (mem', p) ∧ p ≠ 0 ∧
        a.RunAt free n_blocks.toNat p ∧ (∀ q, a.RunAt free n_blocks.toNat q → p ≤ q) ∧
        free = front ++ (chunks a.storage.m_partition_size p n_blocks.toNat ++ back) ∧
        IsList (nextOf mem') 0 (a.storage.m_head mem') (front ++ back)) ∨
      (a.storage.allocN w.mem n_blocks fuel = some (w.mem, 0) ∧
        ∀ q, ¬a.RunAt free n_blocks.toNat q))

variable {a} {free : List Nat} {n : Nat} {w : World} {pool : Pool a.count} {fuel : Nat}

/-- A run of addresses is a run of numbers: it does not go on behind the last
chunk, nor come back through the end of the address space. -/
theorem runAt_iff (hFree : ∀ x ∈ free, x < a.count) (hn : 0 < n) (p : UInt64) :
    a.RunAt (free.map a.chunkAt) n p ↔ ∃ j, p = a.chunkAt j ∧ ¬NoRunAt free n j := by
  unfold NoRunAt
  constructor
  · intro hRun
    have hChunk : ∀ i < n, p + UInt64.ofNat i * a.storage.m_partition_size ∈
        free.map a.chunkAt := by
      intro i hi
      exact hRun _ (List.mem_map.mpr ⟨i, List.mem_range.mpr hi, rfl⟩)
    have hFirst := hChunk 0 hn
    obtain ⟨j, hj, hEq⟩ := List.mem_map.mp hFirst
    obtain rfl : p = a.chunkAt j := by
      rw [hEq]
      simp
    refine ⟨j, rfl, ?_⟩
    rintro ⟨i, hi, hGap⟩
    induction i with
    | zero => exact hGap hj
    | succ i ih =>
        have hPrev : j + i ∈ free := by
          by_contra hNot
          exact ih (by omega) hNot
        obtain ⟨x, hx, hSame⟩ := List.mem_map.mp (hChunk (i + 1) hi)
        rw [a.chunkAt_add] at hSame
        have hPrevLt := hFree _ hPrev
        have hIndex := a.chunkAt_inj (Nat.le_of_lt (hFree x hx)) (by omega) hSame
        exact hGap (hIndex ▸ hx)
  · rintro ⟨j, rfl, hAll⟩ q hq
    rw [chunks_chunkAt] at hq
    obtain ⟨x, hx, rfl⟩ := List.mem_map.mp hq
    obtain ⟨hLow, hHigh⟩ := List.mem_range'_1.mp hx
    apply List.mem_map_of_mem
    by_contra hNot
    exact hAll ⟨x - j, by omega, by rwa [Nat.add_sub_cancel' hLow]⟩

theorem not_noRunAt_of_split {front back : List Nat} {j : Nat} :
    ¬NoRunAt (front ++ (List.range' j n ++ back)) n j := by
  rintro ⟨i, hi, hGap⟩
  apply hGap
  apply List.mem_append_right
  exact List.mem_append_left _ (List.mem_range'_1.mpr ⟨by omega, by omega⟩)

/-- A storage that stands for a pool takes the lowest run. -/
theorem Represents.takesLowestRun (h : a.Represents w pool) (hFuel : a.count < fuel)
    {n_blocks : UInt64} (hBlocks : n_blocks ≠ 0) : a.TakesLowestRun fuel w n_blocks := by
  have hPos : 0 < n_blocks.toNat := by
    apply Nat.pos_of_ne_zero
    intro hZero
    exact hBlocks (UInt64.toNat_inj.mp hZero)
  have hFree : ∀ x ∈ pool.free, x < a.count := fun _ => pool.lt_count_of_mem_free
  refine ⟨pool.free.map a.chunkAt, h.reaches, ?_⟩
  rcases Arena.allocN_spec hPos hFree pool.sorted h.reaches
      (Nat.lt_of_le_of_lt pool.length_free_le hFuel) with
    ⟨hNone, hNoRun⟩ | ⟨front, j, back, mem', hSplit, hSome, hList, hLowest⟩
  · refine Or.inr ⟨hNone, fun q hRun => ?_⟩
    obtain ⟨j, -, hAll⟩ := (runAt_iff hFree hPos q).mp hRun
    exact hAll (hNoRun j)
  · have hFirst : j ∈ pool.free := by
      rw [hSplit]
      apply List.mem_append_right
      exact List.mem_append_left _ (List.mem_range'_1.mpr ⟨Nat.le_refl j, by omega⟩)
    have hBelow := hFree j hFirst
    have hRun : ¬NoRunAt pool.free n_blocks.toNat j := by
      rw [hSplit]
      exact not_noRunAt_of_split
    refine Or.inl ⟨mem', a.chunkAt j, front.map a.chunkAt, back.map a.chunkAt, hSome,
      a.chunkAt_ne_zero (Nat.le_of_lt hBelow) (by omega),
      (runAt_iff hFree hPos _).mpr ⟨j, rfl, hRun⟩, ?_, ?_, ?_⟩
    · intro q hOther
      obtain ⟨i, rfl, hAll⟩ := (runAt_iff hFree hPos q).mp hOther
      have hNotBelow : j ≤ i := by
        by_contra hLt
        exact hAll (hLowest i (Nat.not_le.mp hLt))
      have hi : i < a.count := by
        apply hFree
        by_contra hNot
        exact hAll ⟨0, hPos, hNot⟩
      rw [← UInt64.not_lt, a.chunkAt_lt_iff (Nat.le_of_lt hi) (Nat.le_of_lt hBelow)]
      omega
    · rw [hSplit, List.map_append, List.map_append, chunks_chunkAt]
    · rw [← List.map_append]
      exact hList

/-- In every state that is reached, an allocation returns, and takes the lowest
run if there is one. -/
theorem always_takesLowestRun (a : Arena) {fuel : Nat} (hFuel : a.count < fuel) (mem : Flat)
    (calls : List Call) :
    Always (a.step fuel) (fun w => ∀ n_blocks, n_blocks ≠ 0 → a.TakesLowestRun fuel w n_blocks)
      (a.initial mem) calls := by
  apply (always_represents hFuel mem calls).mono
  rintro w ⟨pool, h⟩ n_blocks hBlocks
  exact h.takesLowestRun hFuel hBlocks

/-- The free list is in two pieces before the last call. -/
theorem always_takesLowestRun_threeChunks :
    Always (threeChunks.step 4)
      (fun w => ∀ n_blocks, n_blocks ≠ 0 → threeChunks.TakesLowestRun 4 w n_blocks)
      (threeChunks.initial fun _ => 0)
      [.allocN 1, .allocN 1, .freeN 64 1, .allocN 2, .freeN 96 1, .allocN 3] :=
  always_takesLowestRun threeChunks (by decide) (fun _ => 0) _

end CppPerf.Storage.Arena
