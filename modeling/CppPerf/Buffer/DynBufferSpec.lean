import CppPerf.Buffer.DynBuffer

/-! What the operations of the byte buffer do to its content. The statements
about growth are for sums and sizes that fit in 32 bits. -/
namespace CppPerf.Buffer.CDynBuffer

open Heap

/-- The buffer owns a block of its size, and the content lies inside it. -/
structure Holds (b : CDynBuffer) (block : Block) (off : Nat) (content : List UInt8) : Prop where
  buffer_eq : b.m_pBuffer = some block
  cur_eq : b.m_pCur = some ⟨block.id, off⟩
  size_eq : block.bytes.length = b.m_lSize.toNat
  bound : off + b.m_lLen.toNat ≤ b.m_lSize.toNat
  content_eq : slice block.bytes off b.m_lLen.toNat = content

/-- The two buffers differ in their statistics only. -/
structure Kept (b b' : CDynBuffer) : Prop where
  buffer_eq : b'.m_pBuffer = b.m_pBuffer
  cur_eq : b'.m_pCur = b.m_pCur
  size_eq : b'.m_lSize = b.m_lSize
  max_eq : b'.m_lMaxSize = b.m_lMaxSize
  len_eq : b'.m_lLen = b.m_lLen

/-- The length exceeds the maximum. -/
def Refuses (b : CDynBuffer) (len : UInt32) : Prop := b.m_lMaxSize < b.m_lLen + len

/-- The length fits below the maximum but not into the block, and the block is
less than 100 bytes smaller than the maximum it would have to grow to. -/
def Stranded (b : CDynBuffer) (len : UInt32) : Prop :=
  ¬b.Refuses len ∧ b.m_lSize < b.m_lLen + len ∧ b.m_lMaxSize < b.grownSize len ∧
    b.m_lMaxSize - b.m_lSize < 100

instance (b : CDynBuffer) (len : UInt32) : Decidable (b.Refuses len) :=
  inferInstanceAs (Decidable (_ < _))

instance (b : CDynBuffer) (len : UInt32) : Decidable (b.Stranded len) :=
  inferInstanceAs (Decidable (_ ∧ _))

theorem Holds.of_kept {b b' : CDynBuffer} {block : Block} {off : Nat} {content : List UInt8}
    (h : b.Holds block off content) (hKept : b.Kept b') : b'.Holds block off content := by
  constructor
  · rw [hKept.buffer_eq, h.buffer_eq]
  · rw [hKept.cur_eq, h.cur_eq]
  · rw [hKept.size_eq, h.size_eq]
  · rw [hKept.len_eq, hKept.size_eq]
    exact h.bound
  · rw [hKept.len_eq, h.content_eq]

theorem checkPeak_kept (b : CDynBuffer) : b.Kept b.checkPeak := ⟨rfl, rfl, rfl, rfl, rfl⟩

theorem countFailed_kept (b : CDynBuffer) : b.Kept b.countFailed := ⟨rfl, rfl, rfl, rfl, rfl⟩

theorem countException_kept (b : CDynBuffer) : b.Kept b.countAttempted.countException :=
  ⟨rfl, rfl, rfl, rfl, rfl⟩

/-- The exits of `resize` in their order. -/
theorem resize_eq (b : CDynBuffer) (len : UInt32) (alloc : Option Nat) :
    b.resize len alloc =
      if b.Refuses len then some (b.countFailed, false)
      else if b.Stranded len then
        some ({ b.countAttempted.countFailed with m_pBuffer := none }, false)
      else if b.m_lSize < b.m_lLen + len then
        match alloc with
        | none => some (b.countAttempted.countException, false)
        | some id => (b.countAttempted.grow (b.nextSize len) id).map (·, true)
      else
        (b.hasRoom len).bind fun room =>
          if room then some (b, true) else b.compact.map (·, true) := by
  by_cases hMax : b.Refuses len
  · have hOver : b.m_lMaxSize < b.m_lLen + len := hMax
    unfold resize
    rw [if_pos hOver, if_pos hMax]
  · have hUnder : ¬b.m_lMaxSize < b.m_lLen + len := hMax
    unfold resize
    rw [if_neg hUnder, if_neg hMax]
    by_cases hStrand : b.Stranded len
    · rw [if_pos hStrand.2.1, if_pos hStrand.2.2, if_pos hStrand]
    · rw [if_neg hStrand]
      split_ifs with hSize hNear
      · exact absurd ⟨hMax, hSize, hNear⟩ hStrand
      · rfl
      · rfl

/-- A refusal keeps the buffer, unless it gives up the storage. -/
theorem resize_refused {b b' : CDynBuffer} {len : UInt32} {alloc : Option Nat}
    (h : b.resize len alloc = some (b', false)) :
    (¬b.Stranded len ∧ b.Kept b') ∨ (b.Stranded len ∧ b'.m_pBuffer = none) := by
  rw [resize_eq] at h
  split_ifs at h with hMax hStrand hSize
  · obtain rfl : _ = b' := congrArg Prod.fst (Option.some.inj h)
    exact Or.inl ⟨fun hs => hs.1 hMax, b.countFailed_kept⟩
  · obtain rfl : _ = b' := congrArg Prod.fst (Option.some.inj h)
    exact Or.inr ⟨hStrand, rfl⟩
  · cases alloc with
    | none =>
        obtain rfl : _ = b' := congrArg Prod.fst (Option.some.inj h)
        exact Or.inl ⟨hStrand, b.countException_kept⟩
    | some id => simp [Option.map_eq_some_iff] at h
  · cases hRoom : b.hasRoom len with
    | none => simp [hRoom] at h
    | some room => cases room <;> simp [hRoom, Option.map_eq_some_iff] at h

section Accepted

variable {b : CDynBuffer} {block : Block} {off : Nat} {content : List UInt8}

theorem Holds.length_content (h : b.Holds block off content) :
    content.length = b.m_lLen.toNat := by
  have hBound := h.bound
  rw [← h.content_eq, length_slice]
  rw [h.size_eq]
  omega

theorem Holds.load_eq (h : b.Holds block off content) :
    load b.m_pBuffer b.m_pCur b.m_lLen.toNat = some content := by
  have hBound := h.bound
  rw [h.buffer_eq, h.cur_eq, load_of_le, h.content_eq]
  rw [h.size_eq]
  omega

theorem Holds.hasRoom_eq (h : b.Holds block off content) {len : UInt32}
    (hSum : b.m_lLen.toNat + len.toNat < 2 ^ 32) :
    b.hasRoom len = some (decide (off + b.m_lLen.toNat + len.toNat ≤ b.m_lSize.toNat)) := by
  have hBound := h.bound
  have hOff : off ≤ block.bytes.length := by
    rw [h.size_eq]
    omega
  have hToNat : (len + b.m_lLen).toNat = len.toNat + b.m_lLen.toNat := by
    rw [UInt32.toNat_add]
    omega
  rw [hasRoom, h.buffer_eq, h.cur_eq, distance_of_le hOff, Option.map_some, hToNat]
  congr 2
  apply propext
  omega

/-- After a compaction the content starts at the front of the same block. -/
theorem Holds.compact_spec (h : b.Holds block off content) :
    ∃ b' block', b.compact = some b' ∧ b'.Holds block' 0 content ∧ b'.m_lSize = b.m_lSize ∧
      b'.m_lMaxSize = b.m_lMaxSize ∧ b'.m_lLen = b.m_lLen ∧ block'.id = block.id := by
  have hBound := h.bound
  have hLength := h.length_content
  have hFits : 0 + content.length ≤ block.bytes.length := by
    rw [h.size_eq]
    omega
  have hStore : store b.m_pBuffer (get b.m_pBuffer) content =
      some { block with bytes := overwrite block.bytes 0 content } := by
    rw [h.buffer_eq]
    exact store_of_le hFits
  unfold compact
  rw [h.load_eq, Option.bind_some, hStore]
  refine ⟨_, { block with bytes := overwrite block.bytes 0 content }, rfl, ?_, rfl, rfl, rfl, rfl⟩
  refine ⟨rfl, rfl, ?_, ?_, ?_⟩
  · rw [length_overwrite hFits, h.size_eq]
  · simp only
    omega
  · rw [← hLength]
    exact slice_overwrite_self hFits

/-- After a growth the content starts at the front of the new block. -/
theorem Holds.grow_spec (h : b.Holds block off content) {newSize : UInt32}
    (hSize : b.m_lLen.toNat ≤ newSize.toNat) (id : Nat) :
    ∃ b' block', b.grow newSize id = some b' ∧ b'.Holds block' 0 content ∧
      b'.m_lSize = newSize ∧ b'.m_lMaxSize = b.m_lMaxSize ∧ b'.m_lLen = b.m_lLen ∧
      block'.id = id := by
  have hLength := h.length_content
  have hFits : 0 + content.length ≤ (Block.zeroed id newSize.toNat).bytes.length := by
    rw [Block.length_zeroed]
    omega
  have hStore : store (some (Block.zeroed id newSize.toNat))
      (some (Block.zeroed id newSize.toNat).start) content =
        some ⟨id, overwrite (Block.zeroed id newSize.toNat).bytes 0 content⟩ :=
    store_of_le hFits
  unfold grow
  simp only [h.load_eq, Option.bind_some, hStore, Option.map_some]
  refine ⟨_, ⟨id, overwrite (Block.zeroed id newSize.toNat).bytes 0 content⟩, rfl, ?_, rfl, rfl,
    rfl, rfl⟩
  refine ⟨rfl, rfl, ?_, ?_, ?_⟩
  · rw [length_overwrite hFits, Block.length_zeroed]
  · simp only
    omega
  · rw [← hLength]
    exact slice_overwrite_self hFits

/-- The new size holds what is asked for and does not exceed the maximum. -/
theorem nextSize_bounds (b : CDynBuffer) (len : UInt32) (hMax : b.m_lMaxSize.toNat < 2 ^ 31)
    (hSum : b.m_lLen.toNat + len.toNat ≤ b.m_lMaxSize.toNat) :
    b.m_lLen.toNat + len.toNat ≤ (b.nextSize len).toNat ∧
      (b.nextSize len).toNat ≤ b.m_lMaxSize.toNat := by
  have hAdd : (b.m_lLen + len).toNat = b.m_lLen.toNat + len.toNat := by
    rw [UInt32.toNat_add]
    omega
  have hBy (n : UInt32) (hn : n.toNat < 2 ^ 31) : (n / 2 * 3 + 2).toNat = n.toNat / 2 * 3 + 2 := by
    simp only [UInt32.toNat_add, UInt32.toNat_mul, UInt32.toNat_div, UInt32.reduceToNat]
    omega
  have hGrown : b.m_lLen.toNat + len.toNat ≤ (b.grownSize len).toNat := by
    unfold grownSize
    simp only [UInt32.lt_iff_toNat_lt]
    split_ifs with hSmall
    · rw [hBy _ (by omega), hAdd]
      omega
    · omega
  unfold nextSize
  split_ifs with hOver <;> rw [UInt32.lt_iff_toNat_lt] at hOver <;> omega

theorem toNat_add_le {b : CDynBuffer} {len : UInt32}
    (hSum : b.m_lLen.toNat + len.toNat < 2 ^ 32) :
    b.Refuses len ↔ b.m_lMaxSize.toNat < b.m_lLen.toNat + len.toNat := by
  rw [Refuses, UInt32.lt_iff_toNat_lt, UInt32.toNat_add]
  constructor <;> intro h <;> omega

/-- An accepted `resize` keeps the content and makes room behind it. -/
theorem Holds.resize_spec (h : b.Holds block off content) {len : UInt32} {alloc : Option Nat}
    (hMax : b.m_lMaxSize.toNat < 2 ^ 31)
    (hSum : b.m_lLen.toNat + len.toNat ≤ b.m_lMaxSize.toNat) (hStrand : ¬b.Stranded len)
    (hAlloc : b.m_lSize.toNat < b.m_lLen.toNat + len.toNat → alloc.isSome = true) :
    ∃ b' block' off', b.resize len alloc = some (b', true) ∧ b'.Holds block' off' content ∧
      off' + b.m_lLen.toNat + len.toNat ≤ b'.m_lSize.toNat ∧ b'.m_lLen = b.m_lLen ∧
      b'.m_lMaxSize = b.m_lMaxSize ∧
      b'.m_lSize = (if b.m_lSize.toNat < b.m_lLen.toNat + len.toNat then b.nextSize len
        else b.m_lSize) ∧
      (off' = off ∨ off' = 0) ∧ (block'.id = block.id ∨ alloc = some block'.id) := by
  have hAdd : (b.m_lLen + len).toNat = b.m_lLen.toNat + len.toNat := by
    rw [UInt32.toNat_add]
    omega
  have hRefuses : ¬b.Refuses len := by
    rw [toNat_add_le (by omega)]
    omega
  have hNext := b.nextSize_bounds len hMax hSum
  rw [resize_eq, if_neg hRefuses, if_neg hStrand]
  simp only [UInt32.lt_iff_toNat_lt, hAdd]
  by_cases hGrow : b.m_lSize.toNat < b.m_lLen.toNat + len.toNat
  · obtain ⟨id, rfl⟩ := Option.isSome_iff_exists.mp (hAlloc hGrow)
    have hHolds : b.countAttempted.Holds block off content := ⟨h.1, h.2, h.3, h.4, h.5⟩
    have hFit : b.countAttempted.m_lLen.toNat ≤ (b.nextSize len).toNat :=
      Nat.le_trans (Nat.le_add_right _ _) hNext.1
    obtain ⟨b', block', hRun, hNew, hNewSize, hNewMax, hNewLen, rfl⟩ := hHolds.grow_spec hFit id
    rw [if_pos hGrow, if_pos hGrow]
    simp only [hRun]
    refine ⟨b', block', 0, rfl, hNew, ?_, hNewLen, hNewMax, hNewSize, Or.inr rfl, Or.inr rfl⟩
    rw [hNewSize]
    omega
  · rw [if_neg hGrow, if_neg hGrow, h.hasRoom_eq (by omega), Option.bind_some]
    by_cases hRoom : off + b.m_lLen.toNat + len.toNat ≤ b.m_lSize.toNat
    · rw [if_pos (by simpa using hRoom)]
      exact ⟨b, block, off, rfl, h, hRoom, rfl, rfl, rfl, Or.inl rfl, Or.inl rfl⟩
    · obtain ⟨b', block', hRun, hNew, hNewSize, hNewMax, hNewLen, hId⟩ := h.compact_spec
      rw [if_neg (by simpa using hRoom), hRun]
      refine ⟨b', block', 0, rfl, hNew, ?_, hNewLen, hNewMax, hNewSize, Or.inr rfl, Or.inl hId⟩
      rw [hNewSize]
      omega

theorem appendData_refused_iff (b b' : CDynBuffer) (data : Chars) (alloc : Option Nat) :
    b.appendData data alloc = some (b', false) ↔ b.resize data.len alloc = some (b', false) := by
  unfold appendData
  rcases b.resize data.len alloc with _ | ⟨c, ok⟩
  · simp
  · cases ok <;> simp

/-- Data that fits behind the content is put there. -/
theorem Holds.write_spec (h : b.Holds block off content) {data : Chars}
    (hRoom : off + b.m_lLen.toNat + data.bytes.length ≤ b.m_lSize.toNat) :
    ∃ b' block', b.write data = some b' ∧ b'.Holds block' off (content ++ data.bytes) ∧
      b'.m_lLen.toNat = b.m_lLen.toNat + data.bytes.length ∧ b'.m_lMaxSize = b.m_lMaxSize ∧
      b'.m_lSize = b.m_lSize ∧ block'.id = block.id := by
  have hSize := b.m_lSize.toNat_lt
  have hSum : b.m_lLen.toNat + data.len.toNat < 2 ^ 32 := by
    rw [data.toNat_len]
    omega
  have hHas : b.hasRoom data.len = some true := by
    rw [h.hasRoom_eq hSum, data.toNat_len, decide_eq_true hRoom]
  have hFits : off + b.m_lLen.toNat + data.bytes.length ≤ block.bytes.length := by
    rw [h.size_eq]
    exact hRoom
  have hStore : store b.m_pBuffer (shift b.m_pCur b.m_lLen.toNat) data.bytes =
      some { block with bytes := overwrite block.bytes (off + b.m_lLen.toNat) data.bytes } := by
    rw [h.buffer_eq, h.cur_eq]
    exact store_of_le hFits
  have hTotal : (b.m_lLen + data.len).toNat = b.m_lLen.toNat + data.bytes.length := by
    rw [UInt32.toNat_add, ← data.toNat_len]
    omega
  unfold write
  rw [if_pos hHas, hStore]
  refine ⟨_, { block with bytes := overwrite block.bytes (off + b.m_lLen.toNat) data.bytes },
    rfl, ⟨rfl, h.cur_eq, ?_, ?_, ?_⟩, hTotal, rfl, rfl, rfl⟩
  · rw [length_overwrite hFits, h.size_eq]
  · change off + (b.m_lLen + data.len).toNat ≤ b.m_lSize.toNat
    omega
  · simp only [hTotal]
    rw [slice_overwrite_append hFits, h.content_eq]

/-- An accepted append puts the data behind the content. -/
theorem Holds.appendData_spec (h : b.Holds block off content) {data : Chars}
    {alloc : Option Nat} (hMax : b.m_lMaxSize.toNat < 2 ^ 31)
    (hSum : b.m_lLen.toNat + data.bytes.length ≤ b.m_lMaxSize.toNat)
    (hStrand : ¬b.Stranded data.len)
    (hAlloc : b.m_lSize.toNat < b.m_lLen.toNat + data.bytes.length → alloc.isSome = true) :
    ∃ b' block' off', b.appendData data alloc = some (b', true) ∧
      b'.Holds block' off' (content ++ data.bytes) ∧
      b'.m_lLen.toNat = b.m_lLen.toNat + data.bytes.length ∧ b'.m_lMaxSize = b.m_lMaxSize ∧
      b'.m_lSize = (if b.m_lSize.toNat < b.m_lLen.toNat + data.bytes.length then
        b.nextSize data.len else b.m_lSize) ∧
      (off' = off ∨ off' = 0) ∧ (block'.id = block.id ∨ alloc = some block'.id) := by
  rw [← data.toNat_len] at hSum hAlloc
  obtain ⟨c, block₁, off', hResize, hHolds, hRoom, hLen, hMaxEq, hSizeEq, hOff, hId⟩ :=
    h.resize_spec hMax hSum hStrand hAlloc
  rw [← hLen, data.toNat_len] at hRoom
  obtain ⟨b', block', hWrite, hNew, hLen', hMax', hSize', hId'⟩ := hHolds.write_spec hRoom
  rw [← hId'] at hId
  refine ⟨b'.checkPeak, block', off', ?_, hNew.of_kept b'.checkPeak_kept, ?_, ?_, ?_, hOff, hId⟩
  · simp only [appendData, hResize, Option.bind_some, ↓reduceIte, hWrite, Option.map_some]
  · rw [← hLen]
    exact hLen'
  · exact hMax'.trans hMaxEq
  · rw [← data.toNat_len]
    exact hSize'.trans hSizeEq

/-- A `resize` is refused, or nothing stands in its way. -/
theorem resize_cases (b : CDynBuffer) (len : UInt32) (alloc : Option Nat)
    (hSum : b.m_lLen.toNat + len.toNat < 2 ^ 32) :
    (∃ b', b.resize len alloc = some (b', false)) ∨
      (b.m_lLen.toNat + len.toNat ≤ b.m_lMaxSize.toNat ∧ ¬b.Stranded len ∧
        (b.m_lSize.toNat < b.m_lLen.toNat + len.toNat → alloc.isSome = true)) := by
  have hAdd : (b.m_lLen + len).toNat = b.m_lLen.toNat + len.toNat := by
    rw [UInt32.toNat_add]
    omega
  rw [resize_eq]
  by_cases hRefuses : b.Refuses len
  · exact Or.inl ⟨_, if_pos hRefuses⟩
  · rw [if_neg hRefuses]
    rw [toNat_add_le hSum] at hRefuses
    by_cases hStrand : b.Stranded len
    · exact Or.inl ⟨_, if_pos hStrand⟩
    · rw [if_neg hStrand]
      by_cases hAlloc : b.m_lSize.toNat < b.m_lLen.toNat + len.toNat ∧ alloc = none
      · obtain ⟨hGrow, rfl⟩ := hAlloc
        have hGrow' : b.m_lSize < b.m_lLen + len := by
          rw [UInt32.lt_iff_toNat_lt, hAdd]
          exact hGrow
        exact Or.inl ⟨_, if_pos hGrow'⟩
      · refine Or.inr ⟨by omega, hStrand, fun hGrow => ?_⟩
        rw [Option.isSome_iff_ne_none]
        exact fun hNone => hAlloc ⟨hGrow, hNone⟩

theorem appendData_cases (b : CDynBuffer) (data : Chars) (alloc : Option Nat)
    (hSum : b.m_lLen.toNat + data.bytes.length < 2 ^ 32) :
    (∃ b', b.appendData data alloc = some (b', false)) ∨
      (b.m_lLen.toNat + data.bytes.length ≤ b.m_lMaxSize.toNat ∧ ¬b.Stranded data.len ∧
        (b.m_lSize.toNat < b.m_lLen.toNat + data.bytes.length → alloc.isSome = true)) := by
  simp only [appendData_refused_iff, ← data.toNat_len]
  rw [← data.toNat_len] at hSum
  exact b.resize_cases data.len alloc hSum

theorem Holds.clearData_spec (h : b.Holds block off content) :
    b.clearData.Holds block 0 [] := by
  refine ⟨h.buffer_eq, ?_, h.size_eq, Nat.zero_le _, by simp [clearData]⟩
  rw [clearData, h.buffer_eq]
  rfl

/-- Consumed bytes leave at the front. An emptied buffer starts over. -/
theorem Holds.setDataConsumed_spec (h : b.Holds block off content) (lLen : UInt32) :
    ∃ off', (b.setDataConsumed lLen).Holds block off' (content.drop lLen.toNat) ∧
      (b.setDataConsumed lLen).m_lSize = b.m_lSize ∧
      (b.setDataConsumed lLen).m_lMaxSize = b.m_lMaxSize ∧
      ((b.setDataConsumed lLen).m_lLen = 0 → off' = 0) := by
  have hBound := h.bound
  have hLength := h.length_content
  -- The number of bytes that leave, and of those that stay.
  obtain ⟨n, hn⟩ : ∃ n, n = if b.m_lLen < lLen then b.m_lLen else lLen := ⟨_, rfl⟩
  have hLe : n.toNat ≤ b.m_lLen.toNat := by
    rw [hn]
    split_ifs with hOver
    · exact Nat.le_refl _
    · rw [UInt32.lt_iff_toNat_lt] at hOver
      omega
  have hRest : (b.m_lLen - n).toNat = b.m_lLen.toNat - n.toNat :=
    UInt32.toNat_sub_of_le _ _ (UInt32.le_iff_toNat_le.mpr hLe)
  have hDrop : content.drop lLen.toNat = content.drop n.toNat := by
    rw [hn]
    split_ifs with hOver
    · rw [UInt32.lt_iff_toNat_lt] at hOver
      rw [List.drop_of_length_le (by omega), List.drop_of_length_le (by omega)]
    · rfl
  unfold setDataConsumed
  rw [← hn, hDrop]
  simp only
  split_ifs with hEmpty
  · have hAll : n.toNat = b.m_lLen.toNat := by
      have hZero : (b.m_lLen - n).toNat = 0 := by rw [hEmpty]; rfl
      omega
    refine ⟨0, ⟨h.buffer_eq, ?_, h.size_eq, ?_, ?_⟩, rfl, rfl, fun _ => rfl⟩
    · simp only [h.buffer_eq]
      rfl
    · simp only [hRest]
      omega
    · rw [List.drop_of_length_le (by omega)]
      simp [hEmpty]
  · refine ⟨off + n.toNat, ⟨h.buffer_eq, ?_, h.size_eq, ?_, ?_⟩, rfl, rfl, ?_⟩
    · simp only [h.cur_eq]
      rfl
    · simp only [hRest]
      omega
    · simp only [hRest]
      rw [slice_drop, h.content_eq]
    · intro hZero
      exact absurd hZero hEmpty

/-- A resize keeps the content, refused or not, unless it loses the storage. -/
theorem Holds.resize_kept (h : b.Holds block off content) {len : UInt32} {alloc : Option Nat}
    (hMax : b.m_lMaxSize.toNat < 2 ^ 31) (hSize : b.m_lSize.toNat ≤ b.m_lMaxSize.toNat)
    (hSum : b.m_lLen.toNat + len.toNat < 2 ^ 32) {c : CDynBuffer} {ok : Bool}
    (hResize : b.resize len alloc = some (c, ok)) (hStorage : c.m_pBuffer ≠ none) :
    ∃ block' off', c.Holds block' off' content ∧ c.m_lMaxSize = b.m_lMaxSize ∧
      b.m_lSize.toNat ≤ c.m_lSize.toNat ∧ c.m_lSize.toNat ≤ b.m_lMaxSize.toNat ∧
      (block'.id = block.id ∨ alloc = some block'.id) := by
  rcases b.resize_cases len alloc hSum with ⟨c', hRefused⟩ | ⟨hUnder, hStrand, hAlloc⟩
  · obtain ⟨rfl, rfl⟩ : c = c' ∧ ok = false := by
      simpa using hResize.symm.trans hRefused
    rcases resize_refused hRefused with ⟨_, hKept⟩ | ⟨_, hLost⟩
    · refine ⟨block, off, h.of_kept hKept, hKept.max_eq, ?_, ?_, Or.inl rfl⟩
      · exact Nat.le_of_eq (congrArg UInt32.toNat hKept.size_eq.symm)
      · rw [hKept.size_eq]
        exact hSize
    · exact absurd hLost hStorage
  · obtain ⟨c', block', off', hAccepted, hNew, _, _, hMaxEq, hSizeEq, _, hId⟩ :=
      h.resize_spec hMax hUnder hStrand hAlloc
    obtain ⟨rfl, rfl⟩ : c = c' ∧ ok = true := by
      simpa using hResize.symm.trans hAccepted
    have hNext := b.nextSize_bounds len hMax hUnder
    have hGrew : b.m_lSize.toNat ≤ c.m_lSize.toNat ∧ c.m_lSize.toNat ≤ b.m_lMaxSize.toNat := by
      rw [hSizeEq]
      split_ifs <;> omega
    exact ⟨block', off', hNew, hMaxEq, hGrew.1, hGrew.2, hId⟩

/-- A copy that is made at all holds the bytes of the other buffer. -/
theorem Holds.copyFrom_spec (h : b.Holds block off content) {copy_ b' : CDynBuffer}
    {bytes : List UInt8} (hCopy : copy_.getBuffer = some bytes)
    (hBytes : bytes.length = copy_.m_lLen.toNat) {alloc : Option Nat}
    (hMax : b.m_lMaxSize.toNat < 2 ^ 31) (hSize : b.m_lSize.toNat ≤ b.m_lMaxSize.toNat)
    (hSum : b.m_lLen.toNat + copy_.m_lLen.toNat < 2 ^ 32)
    (hRun : b.copyFrom copy_ alloc = some b') :
    ∃ block', b'.Holds block' 0 bytes ∧ b'.m_lMaxSize = b.m_lMaxSize ∧
      b.m_lSize.toNat ≤ b'.m_lSize.toNat ∧ b'.m_lSize.toNat ≤ b.m_lMaxSize.toNat ∧
      (block'.id = block.id ∨ alloc = some block'.id) := by
  simp only [copyFrom, hCopy, Option.bind_some, Option.bind_eq_some_iff,
    Option.map_eq_some_iff] at hRun
  obtain ⟨c, hRoom, target, hStore, rfl⟩ := hRun
  -- Before the bytes are stored the buffer still holds its old content.
  have hHolds : ∃ block₁ off₁, c.Holds block₁ off₁ content ∧ c.m_lMaxSize = b.m_lMaxSize ∧
      b.m_lSize.toNat ≤ c.m_lSize.toNat ∧ c.m_lSize.toNat ≤ b.m_lMaxSize.toNat ∧
      (block₁.id = block.id ∨ alloc = some block₁.id) := by
    split_ifs at hRoom with hSmall
    · obtain ⟨⟨d, ok⟩, hResize, rfl⟩ := Option.map_eq_some_iff.mp hRoom
      apply h.resize_kept hMax hSize hSum hResize
      intro hLost
      rw [hLost] at hStore
      cases hStore
    · obtain rfl := Option.some.inj hRoom
      exact ⟨block, off, h, rfl, Nat.le_refl _, hSize, Or.inl rfl⟩
  obtain ⟨block₁, off₁, hOld, hMaxEq, hGrew, hLe, hId⟩ := hHolds
  have hFits : 0 + bytes.length ≤ block₁.bytes.length := by
    by_contra hBig
    rw [hOld.buffer_eq] at hStore
    simp only [Heap.get, Option.map_some, store, Block.start] at hStore
    rw [if_neg (fun hRoom => hBig hRoom.2)] at hStore
    cases hStore
  have hStored : store c.m_pBuffer (get c.m_pBuffer) bytes =
      some { block₁ with bytes := overwrite block₁.bytes 0 bytes } := by
    rw [hOld.buffer_eq]
    exact store_of_le hFits
  obtain rfl : target = { block₁ with bytes := overwrite block₁.bytes 0 bytes } :=
    Option.some.inj (hStore.symm.trans hStored)
  have hLen : 0 + copy_.m_lLen.toNat ≤ c.m_lSize.toNat := by
    rw [← hBytes, ← hOld.size_eq]
    exact hFits
  refine ⟨{ block₁ with bytes := overwrite block₁.bytes 0 bytes },
    Holds.of_kept ⟨rfl, rfl, ?_, hLen, ?_⟩ (checkPeak_kept _), hMaxEq, hGrew, hLe, hId⟩
  · rw [length_overwrite hFits, hOld.size_eq]
  · simp only
    rw [← hBytes]
    exact slice_overwrite_self hFits

theorem construct_holds (initSize maxSize : UInt32) (id : Nat) :
    (construct initSize maxSize id).Holds (Block.zeroed id initSize.toNat) 0 [] := by
  refine ⟨rfl, rfl, Block.length_zeroed _ _, Nat.zero_le _, ?_⟩
  simp [construct]

end Accepted
end CppPerf.Buffer.CDynBuffer
