import CppPerf.Storage.ChunkPool

/-! The allocator over a vector of chunks. A pointer to a chunk is its index
together with the number of reallocations that the vector had seen, so that a
pointer from before a reallocation dangles. -/
namespace CppPerf.Storage

open Transition

structure ChunkPtr where
  generation : Nat
  index : Nat

structure FixedAllocator where
  blockSize_ : UInt64
  numBlocks_ : UInt8
  chunks_ : List Chunk
  capacity : Nat
  generation : Nat
  allocChunk_ : Option ChunkPtr
  deallocChunk_ : Option ChunkPtr

namespace FixedAllocator

/-- No chunks, and both pointers null. -/
def start (blockSize_ : UInt64) (numBlocks_ : UInt8) : FixedAllocator :=
  ⟨blockSize_, numBlocks_, [], 0, 0, none, none⟩

/-- The chunk behind a pointer; undefined for dangling pointers and at the end. -/
def deref (f : FixedAllocator) (p : ChunkPtr) : Option Chunk :=
  if p.generation = f.generation then f.chunks_[p.index]? else none

/-- The library may reserve `spare` cells more than asked for. -/
def reserve (f : FixedAllocator) (n spare : Nat) : FixedAllocator :=
  if f.capacity < n then { f with capacity := n + spare, generation := f.generation + 1 } else f

/-- A new chunk at the end, within the reserved capacity. -/
def addChunk (f : FixedAllocator) (fresh : Nat → UInt8) (spare : Nat) : Option FixedAllocator :=
  let f := f.reserve (f.chunks_.length + 1) spare
  let back : ChunkPtr := ⟨f.generation, f.chunks_.length⟩
  (Chunk.init fresh f.blockSize_ f.numBlocks_).map fun chunk =>
    { f with
      chunks_ := f.chunks_ ++ [chunk]
      allocChunk_ := some back
      deallocChunk_ := some back }

/-- `allocChunk_ == nullptr || allocChunk_->blocksAvailable_ == 0` -/
def needsChunk (f : FixedAllocator) : Option Bool :=
  match f.allocChunk_ with
  | none => some true
  | some p => (f.deref p).map fun chunk => decide (chunk.blocksAvailable_ = 0)

/-- The first chunk with a free block; the end if there is none. -/
def found (f : FixedAllocator) : Nat :=
  f.chunks_.findIdx fun chk => decide (0 < chk.blocksAvailable_)

def selectChunk (f : FixedAllocator) (fresh : Nat → UInt8) (spare : Nat) :
    Option FixedAllocator :=
  f.needsChunk.bind fun needs =>
    if needs then
      if f.found = f.chunks_.length then
        some { f with allocChunk_ := some ⟨f.generation, f.found⟩ }
      else f.addChunk fresh spare
    else some f

/-- `allocChunk_->Allocate(blockSize_)`. A block is the index of its chunk and
its offset in there. -/
def allocateFrom (f : FixedAllocator) : Option (FixedAllocator × Option (Nat × Nat)) :=
  f.allocChunk_.bind fun p =>
    (f.deref p).bind fun chunk =>
      (chunk.allocate f.blockSize_).map fun (chunk, res) =>
        ({ f with chunks_ := f.chunks_.set p.index chunk }, res.map (p.index, ·))

def allocate (f : FixedAllocator) (fresh : Nat → UInt8) (spare : Nat) :
    Option (FixedAllocator × Option (Nat × Nat)) :=
  (f.selectChunk fresh spare).bind allocateFrom

/-- Every chunk is full. -/
def AllFull (f : FixedAllocator) : Prop := ∀ chunk ∈ f.chunks_, chunk.blocksAvailable_ = 0

/-- The cached chunk has a free block. -/
def CachedHasRoom (f : FixedAllocator) : Prop :=
  ∃ p chunk, f.allocChunk_ = some p ∧ f.deref p = some chunk ∧ chunk.blocksAvailable_ ≠ 0

variable {f f' : FixedAllocator} {fresh : Nat → UInt8} {spare : Nat}

theorem deref_eq_some {p : ChunkPtr} {chunk : Chunk} (h : f.deref p = some chunk) :
    f.chunks_[p.index]? = some chunk := by
  unfold deref at h
  split_ifs at h
  exact h

theorem needsChunk_eq_false (h : f.needsChunk = some false) : f.CachedHasRoom := by
  unfold needsChunk at h
  cases hPtr : f.allocChunk_ with
  | none => simp [hPtr] at h
  | some p =>
      rw [hPtr] at h
      obtain ⟨chunk, hDeref, hRoom⟩ := Option.map_eq_some_iff.mp h
      exact ⟨p, chunk, hPtr, hDeref, of_decide_eq_false hRoom⟩

theorem found_not_full (h : f.found ≠ f.chunks_.length) : ¬f.AllFull := by
  intro hFull
  have hLt : f.found < f.chunks_.length := Nat.lt_of_le_of_ne List.findIdx_le_length h
  obtain ⟨chunk, hMem, hRoom⟩ := List.findIdx_lt_length.mp hLt
  rw [hFull chunk hMem] at hRoom
  exact absurd hRoom (by decide)

@[simp] theorem reserve_chunks_ (f : FixedAllocator) (n spare : Nat) :
    (f.reserve n spare).chunks_ = f.chunks_ := by
  unfold reserve
  split_ifs <;> rfl

@[simp] theorem reserve_blockSize_ (f : FixedAllocator) (n spare : Nat) :
    (f.reserve n spare).blockSize_ = f.blockSize_ := by
  unfold reserve
  split_ifs <;> rfl

@[simp] theorem reserve_numBlocks_ (f : FixedAllocator) (n spare : Nat) :
    (f.reserve n spare).numBlocks_ = f.numBlocks_ := by
  unfold reserve
  split_ifs <;> rfl

theorem addChunk_eq_some (h : f.addChunk fresh spare = some f') :
    ∃ chunk, Chunk.init fresh f.blockSize_ f.numBlocks_ = some chunk ∧
      f'.chunks_ = f.chunks_ ++ [chunk] ∧ f'.blockSize_ = f.blockSize_ ∧
      f'.numBlocks_ = f.numBlocks_ := by
  obtain ⟨chunk, hInit, rfl⟩ := Option.map_eq_some_iff.mp h
  rw [reserve_blockSize_, reserve_numBlocks_] at hInit
  exact ⟨chunk, hInit, by rw [reserve_chunks_], reserve_blockSize_ _ _ _, reserve_numBlocks_ _ _ _⟩

/-- The three ways through the selection. -/
theorem selectChunk_cases (h : f.selectChunk fresh spare = some f') :
    (f.CachedHasRoom ∧ f' = f) ∨
    (f.found = f.chunks_.length ∧ f' = { f with allocChunk_ := some ⟨f.generation, f.found⟩ }) ∨
    (f.found ≠ f.chunks_.length ∧ f.addChunk fresh spare = some f') := by
  obtain ⟨needs, hNeeds, hRest⟩ := Option.bind_eq_some_iff.mp h
  cases needs with
  | false => exact Or.inl ⟨needsChunk_eq_false hNeeds, (Option.some.inj hRest).symm⟩
  | true =>
      rw [if_pos rfl] at hRest
      split_ifs at hRest with hFound
      · exact Or.inr (Or.inl ⟨hFound, (Option.some.inj hRest).symm⟩)
      · exact Or.inr (Or.inr ⟨hFound, hRest⟩)

/-- The pointer past the last chunk is dereferenced. -/
theorem allocateFrom_end (h : f.found = f.chunks_.length) :
    allocateFrom { f with allocChunk_ := some ⟨f.generation, f.found⟩ } = none := by
  simp [allocateFrom, deref, h]

theorem allocateFrom_eq_some {res : Option (Nat × Nat)} (h : f.allocateFrom = some (f', res)) :
    ∃ k chunk chunk' r, f.chunks_[k]? = some chunk ∧
      chunk.allocate f.blockSize_ = some (chunk', r) ∧
      f' = { f with chunks_ := f.chunks_.set k chunk' } ∧ res = r.map (k, ·) := by
  simp only [allocateFrom, Option.bind_eq_some_iff, Option.map_eq_some_iff] at h
  obtain ⟨p, _, chunk, hDeref, ⟨chunk', r⟩, hRun, hEq⟩ := h
  cases hEq
  exact ⟨p.index, chunk, chunk', r, deref_eq_some hDeref, hRun, rfl, rfl⟩

theorem allocateFrom_of_deref {p : ChunkPtr} {chunk chunk' : Chunk} {r : Option Nat}
    (hPtr : f.allocChunk_ = some p) (hDeref : f.deref p = some chunk)
    (hRun : chunk.allocate f.blockSize_ = some (chunk', r)) :
    f.allocateFrom =
      some ({ f with chunks_ := f.chunks_.set p.index chunk' }, r.map (p.index, ·)) := by
  unfold allocateFrom
  rw [Option.bind_eq_some_iff]
  refine ⟨p, hPtr, Option.bind_eq_some_iff.mpr ⟨chunk, hDeref, ?_⟩⟩
  rw [hRun]
  rfl

end FixedAllocator

/-- An allocator and the blocks of each chunk that are out. -/
structure FixedWorld where
  fixed : FixedAllocator
  out : Nat → List Nat

inductive FixedCall where
  /-- What a new chunk happens to contain, and what the vector reserves. -/
  | allocate (fresh : Nat → UInt8) (spare : Nat)
  /-- The user writes to the `j`th byte of a block of a chunk. -/
  | overwrite (k p j : Nat) (byte : UInt8)

namespace FixedWorld

open FixedAllocator ChunkWorld

def take (out : Nat → List Nat) : Option (Nat × Nat) → Nat → List Nat
  | none => out
  | some (k, p) => Function.update out k (p :: out k)

def step : Step FixedWorld FixedCall
  | w, .allocate fresh spare =>
      (w.fixed.allocate fresh spare).map fun (fixed, res) => ⟨fixed, take w.out res⟩
  | w, .overwrite k p j byte =>
      if p ∈ w.out k ∧ j < w.fixed.blockSize_.toNat then
        w.fixed.chunks_[k]?.bind fun chunk =>
          (writeByte chunk.pData_ (p + j) byte).map fun data =>
            { w with fixed := { w.fixed with
                chunks_ := w.fixed.chunks_.set k { chunk with pData_ := data } } }
      else none

/-- The next allocation returns a block of an existing chunk that is not out,
and adds a chunk if and only if all are full. -/
def Allocates (w : FixedWorld) (fresh : Nat → UInt8) (spare : Nat) : Prop :=
  ∃ fixed k p, w.fixed.allocate fresh spare = some (fixed, some (k, p)) ∧
    k < fixed.chunks_.length ∧ p ∈ blocksOf w.fixed.blockSize_ w.fixed.numBlocks_ ∧
    p ∉ w.out k ∧ (w.fixed.chunks_.length < fixed.chunks_.length ↔ w.fixed.AllFull)

/-- Every chunk is a pool; nothing is out of chunks that do not exist. -/
structure Sound (w : FixedWorld) : Prop where
  pool : ∀ k chunk, w.fixed.chunks_[k]? = some chunk →
    ∃ free, Threads w.fixed.blockSize_ w.fixed.numBlocks_ ⟨chunk, w.out k⟩ free
  beyond : ∀ k, w.fixed.chunks_.length ≤ k → w.out k = []

variable {w : FixedWorld} {fresh : Nat → UInt8} {spare : Nat}

theorem start_sound (blockSize_ : UInt64) (numBlocks_ : UInt8) :
    Sound ⟨FixedAllocator.start blockSize_ numBlocks_, fun _ => []⟩ where
  pool _ _ h := by cases h
  beyond _ _ := rfl

/-- Replacing one chunk together with what is out of it. -/
theorem Sound.set (h : w.Sound) {k : Nat} {chunk' : Chunk} {taken : List Nat}
    (hk : k < w.fixed.chunks_.length) {free : List UInt8}
    (hNew : Threads w.fixed.blockSize_ w.fixed.numBlocks_ ⟨chunk', taken⟩ free) :
    Sound ⟨{ w.fixed with chunks_ := w.fixed.chunks_.set k chunk' },
      Function.update w.out k taken⟩ where
  pool j chunk hGet := by
    dsimp only
    by_cases hj : j = k
    · subst j
      rw [List.getElem?_set_self hk] at hGet
      obtain rfl := Option.some.inj hGet
      rw [Function.update_self]
      exact ⟨free, hNew⟩
    · rw [List.getElem?_set_ne (Ne.symm hj)] at hGet
      rw [Function.update_of_ne hj]
      exact h.pool j chunk hGet
  beyond j hj := by
    rw [List.length_set] at hj
    dsimp only
    rw [Function.update_of_ne (by omega)]
    exact h.beyond j hj

theorem Sound.addChunk (h : w.Sound) {fixed : FixedAllocator}
    (hRun : w.fixed.addChunk fresh spare = some fixed) : Sound ⟨fixed, w.out⟩ := by
  obtain ⟨chunk, hInit, hChunks, hBlockSize, hNumBlocks⟩ := addChunk_eq_some hRun
  constructor
  · intro k other hGet
    rw [hChunks] at hGet
    rw [hBlockSize, hNumBlocks]
    rcases Nat.lt_trichotomy k w.fixed.chunks_.length with hLt | rfl | hGt
    · rw [List.getElem?_append_left hLt] at hGet
      exact h.pool k other hGet
    · rw [List.getElem?_concat_length] at hGet
      obtain rfl := Option.some.inj hGet
      dsimp only
      rw [h.beyond _ (Nat.le_refl _)]
      exact threads_of_init hInit
    · rw [List.getElem?_eq_none (by simp; omega)] at hGet
      cases hGet
  · intro k hk
    rw [hChunks, List.length_append] at hk
    exact h.beyond k (by omega)

/-- What is handed out of a chunk was not out. -/
theorem Sound.allocateFrom (h : w.Sound) {fixed : FixedAllocator} {res : Option (Nat × Nat)}
    (hRun : w.fixed.allocateFrom = some (fixed, res)) : Sound ⟨fixed, take w.out res⟩ := by
  obtain ⟨k, chunk, chunk', r, hGet, hAllocate, rfl, rfl⟩ := allocateFrom_eq_some hRun
  obtain ⟨hk, _⟩ := List.getElem?_eq_some_iff.mp hGet
  have hStep : ChunkWorld.step w.fixed.blockSize_ ⟨chunk, w.out k⟩ .allocate =
      some ⟨chunk', r.toList ++ w.out k⟩ := by
    rw [ChunkWorld.step, hAllocate]
    rfl
  obtain ⟨free, hNew⟩ := step_threads _ _ _ (h.pool k chunk hGet) hStep
  cases r with
  | none =>
      have hSound := h.set hk hNew
      rwa [Option.toList_none, List.nil_append, Function.update_eq_self] at hSound
  | some p => exact h.set hk hNew

theorem step_sound (w : FixedWorld) (call : FixedCall) (w' : FixedWorld) (h : w.Sound)
    (hStep : step w call = some w') : w'.Sound := by
  cases call with
  | allocate fresh spare =>
      obtain ⟨⟨fixed, res⟩, hRun, rfl⟩ := Option.map_eq_some_iff.mp hStep
      obtain ⟨selected, hSelect, hFrom⟩ := Option.bind_eq_some_iff.mp hRun
      rcases selectChunk_cases hSelect with ⟨_, rfl⟩ | ⟨hFound, rfl⟩ | ⟨_, hAdd⟩
      · exact h.allocateFrom hFrom
      · rw [allocateFrom_end hFound] at hFrom
        cases hFrom
      · exact (h.addChunk hAdd).allocateFrom hFrom
  | overwrite k p j byte =>
      simp only [step] at hStep
      split_ifs at hStep with hOut
      obtain ⟨chunk, hGet, hRest⟩ := Option.bind_eq_some_iff.mp hStep
      obtain ⟨data, hWrite, rfl⟩ := Option.map_eq_some_iff.mp hRest
      obtain ⟨hk, _⟩ := List.getElem?_eq_some_iff.mp hGet
      obtain ⟨free, hPool⟩ := h.pool k chunk hGet
      have hSound := h.set hk (hPool.overwrite hOut.1 hOut.2 hWrite)
      rwa [Function.update_eq_self] at hSound

/-- A cached chunk with a free block is used as it is. -/
theorem Sound.allocates_of_cached (h : w.Sound) (hRoom : w.fixed.CachedHasRoom) :
    w.Allocates fresh spare := by
  obtain ⟨p, chunk, hPtr, hDeref, hFree⟩ := hRoom
  have hGet := deref_eq_some hDeref
  obtain ⟨hk, _⟩ := List.getElem?_eq_some_iff.mp hGet
  obtain ⟨free, hPool⟩ := h.pool p.index chunk hGet
  have hNeeds : w.fixed.needsChunk = some false := by
    rw [needsChunk, hPtr]
    dsimp only
    rw [hDeref, Option.map_some, decide_eq_false hFree]
  cases hList : free with
  | nil =>
      have hZero := hPool.available
      rw [hList] at hZero
      exact absurd (UInt8.toNat_inj.mp hZero) hFree
  | cons i rest =>
      have hMem : i ∈ free := by
        rw [hList]
        exact List.mem_cons_self
      obtain ⟨chunk', hRun, _⟩ := hPool.allocate_cons hList
      refine ⟨{ w.fixed with chunks_ := w.fixed.chunks_.set p.index chunk' }, p.index,
        i.toNat * w.fixed.blockSize_.toNat, ?_, ?_, mem_blocksOf.mpr
          ⟨i.toNat, (hPool.lt_of_free hMem).2, rfl⟩, hPool.not_out hMem, ?_⟩
      · have hSelect : w.fixed.selectChunk fresh spare = some w.fixed := by
          rw [selectChunk, hNeeds]
          rfl
        rw [FixedAllocator.allocate, hSelect]
        exact allocateFrom_of_deref hPtr hDeref hRun
      · rwa [List.length_set]
      · refine iff_of_false (by simp) fun hFull => hFree ?_
        exact hFull chunk (List.mem_of_getElem? hGet)

/-- Otherwise the two outcomes of the search are mistaken for each other: at the
end there is no chunk to use, and a chunk with a free block is passed over. -/
theorem not_allocates (hRoom : ¬w.fixed.CachedHasRoom) : ¬w.Allocates fresh spare := by
  rintro ⟨fixed, k, p, hRun, _, _, _, hAdds⟩
  obtain ⟨selected, hSelect, hFrom⟩ := Option.bind_eq_some_iff.mp hRun
  rcases selectChunk_cases hSelect with ⟨hCached, _⟩ | ⟨hFound, rfl⟩ | ⟨hFound, hAdd⟩
  · exact hRoom hCached
  · rw [allocateFrom_end hFound] at hFrom
    cases hFrom
  · obtain ⟨chunk, _, hChunks, _⟩ := addChunk_eq_some hAdd
    obtain ⟨_, _, _, _, _, _, rfl, _⟩ := allocateFrom_eq_some hFrom
    apply found_not_full hFound
    apply hAdds.mp
    simp [hChunks]

/-- In every state that is reached from any sound one. -/
theorem always_allocates_iff_cachedHasRoom (start : FixedWorld) (calls : List FixedCall)
    (hStart : start.Sound) :
    Always step (fun w => ∀ fresh spare, w.Allocates fresh spare ↔ w.fixed.CachedHasRoom)
      start calls := by
  have hAlways := always_of_invariant step_sound calls hStart
  refine hAlways.mono fun w hSound fresh spare => ⟨fun h => ?_, hSound.allocates_of_cached⟩
  by_contra hRoom
  exact not_allocates hRoom h

/-- One chunk that is cached. -/
theorem always_allocates_one_chunk : ∃ fixed,
    (FixedAllocator.start 4 3).addChunk (fun _ => 0) 0 = some fixed ∧ fixed.CachedHasRoom ∧
      Sound ⟨fixed, fun _ => []⟩ ∧
      Always step (fun w => ∀ fresh spare, w.Allocates fresh spare ↔ w.fixed.CachedHasRoom)
        ⟨fixed, fun _ => []⟩ [.allocate (fun _ => 0) 0] := by
  have hSound : ∀ fixed, (FixedAllocator.start 4 3).addChunk (fun _ => 0) 0 = some fixed →
      Sound ⟨fixed, fun _ => []⟩ := fun fixed hRun => (start_sound 4 3).addChunk hRun
  refine ⟨_, rfl, ⟨_, _, rfl, rfl, by decide⟩, hSound _ rfl, ?_⟩
  exact always_allocates_iff_cachedHasRoom _ _ (hSound _ rfl)

/-- The first allocation of all. -/
theorem first_allocate_undefined :
    (FixedAllocator.start 4 3).allocate (fun _ => 0) 0 = none ∧
      ¬Allocates ⟨FixedAllocator.start 4 3, fun _ => []⟩ (fun _ => 0) 0 := by
  refine ⟨rfl, ?_⟩
  rintro ⟨fixed, k, p, hRun, _⟩
  cases hRun

end FixedWorld
end CppPerf.Storage
