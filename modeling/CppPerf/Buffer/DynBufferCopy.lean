import CppPerf.Buffer.DynBufferRefusal

/-! `copyFrom` makes room for the copy behind the content it is about to drop,
and copies whatever `resize` says. -/
namespace CppPerf.Buffer.CDynBuffer

open Heap Transition

/-- The buffer owns a block of at least `n` bytes. -/
def HasStorage (b : CDynBuffer) (n : Nat) : Prop :=
  ∃ block, b.m_pBuffer = some block ∧ n ≤ block.bytes.length

/-- The bytes of the other buffer are the content afterwards, at the start of a
block that is owned and was large enough. -/
def CopiesExactly (b copy_ : CDynBuffer) (alloc : Option Nat) : Prop :=
  ∃ b' bytes block, b.copyFrom copy_ alloc = some b' ∧ copy_.getBuffer = some bytes ∧
    b'.getBuffer = some bytes ∧ b'.m_lLen = copy_.m_lLen ∧ b'.m_pBuffer = some block ∧
    b'.m_pCur = some block.start ∧ copy_.m_lLen.toNat ≤ block.bytes.length

/-- What is left at the exits of `resize` takes the bytes of the copy: the old
block, no block, a larger block with the old content, or the old block after
the content was moved in it. -/
def ResizeHolds (b : CDynBuffer) (len : UInt32) (alloc : Option Nat) : Prop :=
  if b.Refuses len then b.HasStorage len.toNat
  else if b.Stranded len then False
  else if b.m_lSize < b.m_lLen + len then
    match alloc with
    | none => b.HasStorage len.toNat
    | some _ => b.getBuffer.isSome = true ∧ b.m_lLen.toNat ≤ (b.nextSize len).toNat ∧
        len.toNat ≤ (b.nextSize len).toNat
  else
    match b.hasRoom len with
    | none => False
    | some true => b.HasStorage len.toNat
    | some false => b.getBuffer.isSome = true ∧ b.HasStorage len.toNat

/-- The other buffer is readable, and this one has the storage, or has it after
a `resize`. -/
def CopyFits (b copy_ : CDynBuffer) (alloc : Option Nat) : Prop :=
  copy_.getBuffer.isSome = true ∧
    if b.m_lSize < copy_.m_lLen then b.ResizeHolds copy_.m_lLen alloc
    else b.HasStorage copy_.m_lLen.toNat

variable {b copy_ : CDynBuffer} {len newSize : UInt32} {n : Nat} {alloc : Option Nat}

theorem hasStorage_of_kept {b' : CDynBuffer} (h : b.Kept b') :
    b'.HasStorage n ↔ b.HasStorage n := by
  rw [HasStorage, HasStorage, h.buffer_eq]

/-- Bytes that are stored into a block leave its length alone. -/
theorem exists_stored_iff {owner : Option Block} {data : List UInt8} {f : Block → CDynBuffer}
    (hf : ∀ block, (f block).m_pBuffer = some block) :
    (∃ c, (store owner (get owner) data).map f = some c ∧ c.HasStorage n) ↔
      ∃ block, owner = some block ∧ data.length ≤ block.bytes.length ∧
        n ≤ block.bytes.length := by
  constructor
  · rintro ⟨_, hRun, hHas⟩
    obtain ⟨_, hStore, rfl⟩ := Option.map_eq_some_iff.mp hRun
    obtain ⟨block, rfl, hFits, rfl⟩ := store_get_eq_some_iff.mp hStore
    obtain ⟨_, hOwn, hn⟩ := hHas
    rw [hf] at hOwn
    obtain rfl := Option.some.inj hOwn
    rw [length_overwrite (by rwa [Nat.zero_add])] at hn
    exact ⟨block, rfl, hFits, hn⟩
  · rintro ⟨block, rfl, hFits, hn⟩
    have hStore := store_get_eq_some_iff.mpr ⟨block, rfl, hFits, rfl⟩
    refine ⟨_, Option.map_eq_some_iff.mpr ⟨_, hStore, rfl⟩, _, hf _, ?_⟩
    rw [length_overwrite (by rwa [Nat.zero_add])]
    exact hn

theorem grow_hasStorage_iff (b : CDynBuffer) (newSize : UInt32) (id n : Nat) :
    (∃ c, b.grow newSize id = some c ∧ c.HasStorage n) ↔
      b.getBuffer.isSome = true ∧ b.m_lLen.toNat ≤ newSize.toNat ∧ n ≤ newSize.toNat := by
  rw [getBuffer, grow]
  cases hLoad : load b.m_pBuffer b.m_pCur b.m_lLen.toNat with
  | none => simp
  | some live =>
      obtain ⟨hLength, _⟩ := exists_owner_of_load hLoad
      have hFresh : some (Block.zeroed id newSize.toNat).start =
          get (some (Block.zeroed id newSize.toNat)) := rfl
      rw [Option.bind_some, hFresh, exists_stored_iff fun _ => rfl]
      simp [hLength]

theorem compact_hasStorage_iff (b : CDynBuffer) (n : Nat) :
    (∃ c, b.compact = some c ∧ c.HasStorage n) ↔
      b.getBuffer.isSome = true ∧ b.HasStorage n := by
  rw [getBuffer, compact]
  cases hLoad : load b.m_pBuffer b.m_pCur b.m_lLen.toNat with
  | none => simp
  | some live =>
      obtain ⟨hLength, block, hOwn, hFits⟩ := exists_owner_of_load hLoad
      rw [Option.bind_some, exists_stored_iff fun _ => rfl, HasStorage, hOwn]
      simp [hLength, hFits]

/-- Whatever `resize` returns, its exits decide about the storage. -/
theorem resize_hasStorage_iff (b : CDynBuffer) (len : UInt32) (alloc : Option Nat) :
    (∃ c, (b.resize len alloc).map Prod.fst = some c ∧ c.HasStorage len.toNat) ↔
      b.ResizeHolds len alloc := by
  have hMap : ∀ r : Option CDynBuffer, (r.map (·, true)).map Prod.fst = r := by
    intro r
    cases r <;> rfl
  have hOne : ∀ c : CDynBuffer, (∃ c', some c = some c' ∧ c'.HasStorage len.toNat) ↔
      c.HasStorage len.toNat := by
    intro c
    simp
  rw [resize_eq]
  unfold ResizeHolds
  by_cases hRefuses : b.Refuses len
  · rw [if_pos hRefuses, if_pos hRefuses]
    exact (hOne _).trans (hasStorage_of_kept b.countFailed_kept)
  · rw [if_neg hRefuses, if_neg hRefuses]
    by_cases hStranded : b.Stranded len
    · rw [if_pos hStranded, if_pos hStranded]
      refine iff_of_false ?_ id
      rintro ⟨c, hRun, block, hOwn, _⟩
      obtain rfl := Option.some.inj hRun
      cases hOwn
    · rw [if_neg hStranded, if_neg hStranded]
      by_cases hSize : b.m_lSize < b.m_lLen + len
      · rw [if_pos hSize, if_pos hSize]
        cases alloc with
        | none => exact (hOne _).trans (hasStorage_of_kept b.countException_kept)
        | some id =>
            dsimp only
            rw [hMap]
            exact grow_hasStorage_iff b.countAttempted (b.nextSize len) id len.toNat
      · rw [if_neg hSize, if_neg hSize]
        cases b.hasRoom len with
        | none => simp
        | some room =>
            cases room with
            | true => exact hOne b
            | false =>
                simp only [Option.bind_some, Bool.false_eq_true, if_false, hMap]
                exact b.compact_hasStorage_iff len.toNat

/-- The first line of `copyFrom`. -/
theorem prepare_hasStorage_iff (b : CDynBuffer) (len : UInt32) (alloc : Option Nat) :
    (∃ c, (if b.m_lSize < len then (b.resize len alloc).map Prod.fst else some b) = some c ∧
      c.HasStorage len.toNat) ↔
      if b.m_lSize < len then b.ResizeHolds len alloc else b.HasStorage len.toNat := by
  by_cases hSmall : b.m_lSize < len
  · rw [if_pos hSmall, if_pos hSmall]
    exact b.resize_hasStorage_iff len alloc
  · rw [if_neg hSmall, if_neg hSmall]
    simp

/-- For two sound buffers the condition is that the copy fits into the block,
or that it fits below the maximum behind the old content, and `resize` neither
strands the buffer nor runs out of memory. -/
theorem Holds.copyFits_iff {block block' : Block} {off off' : Nat} {content content' : List UInt8}
    (h : b.Holds block off content) (hCopy : copy_.Holds block' off' content')
    (hMax : b.m_lMaxSize.toNat < 2 ^ 31)
    (hSum : b.m_lLen.toNat + copy_.m_lLen.toNat < 2 ^ 32) :
    b.CopyFits copy_ alloc ↔
      copy_.m_lLen.toNat ≤ b.m_lSize.toNat ∨
        b.m_lLen.toNat + copy_.m_lLen.toNat ≤ b.m_lMaxSize.toNat ∧
          ¬b.Stranded copy_.m_lLen ∧ alloc.isSome = true := by
  have hStorage : b.HasStorage copy_.m_lLen.toNat ↔ copy_.m_lLen.toNat ≤ b.m_lSize.toNat := by
    rw [HasStorage, h.buffer_eq, ← h.size_eq]
    simp
  have hReadable : copy_.getBuffer.isSome = true := by
    rw [getBuffer, hCopy.load_eq]
    rfl
  have hContent : b.getBuffer.isSome = true := by
    rw [getBuffer, h.load_eq]
    rfl
  have hAdd : (b.m_lLen + copy_.m_lLen).toNat = b.m_lLen.toNat + copy_.m_lLen.toNat := by
    rw [UInt32.toNat_add]
    omega
  have hRefuses := toNat_add_le hSum
  rw [CopyFits, and_iff_right hReadable]
  by_cases hSmall : b.m_lSize < copy_.m_lLen
  · rw [if_pos hSmall]
    unfold ResizeHolds
    rw [UInt32.lt_iff_toNat_lt] at hSmall
    have hGrow : b.m_lSize < b.m_lLen + copy_.m_lLen := by
      rw [UInt32.lt_iff_toNat_lt, hAdd]
      omega
    rw [if_pos hGrow]
    split_ifs with hOver hStranded
    · rw [hStorage]
      rw [hRefuses] at hOver
      omega
    · refine iff_of_false id ?_
      rintro (hBig | ⟨_, hSpared, _⟩)
      · omega
      · exact hSpared hStranded
    · rw [hRefuses, not_lt] at hOver
      have hNext := b.nextSize_bounds copy_.m_lLen hMax hOver
      cases alloc with
      | none => simp [hStorage]
      | some id =>
          refine iff_of_true ⟨hContent, ?_, ?_⟩ (Or.inr ⟨hOver, hStranded, rfl⟩)
          · omega
          · omega
  · rw [if_neg hSmall, hStorage]
    rw [UInt32.lt_iff_toNat_lt, not_lt] at hSmall
    exact iff_of_true hSmall (Or.inl hSmall)

def tenBytes : Chars := ⟨List.replicate 10 65, by decide⟩

def eighteenBytes : Chars := ⟨List.replicate 18 66, by decide⟩

end CppPerf.Buffer.CDynBuffer
