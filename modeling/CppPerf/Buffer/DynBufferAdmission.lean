import CppPerf.Buffer.DynBufferRefusal

/-! `resize` tests 32-bit sums that may wrap around. What it admits fits over
the integers if neither the sum of the lengths nor the size it grows to wraps. -/
namespace CppPerf.Buffer.CDynBuffer

open Heap Transition

/-- The number of bytes that the buffer owns. -/
def capacity (b : CDynBuffer) : Nat :=
  match b.m_pBuffer with
  | none => 0
  | some block => block.bytes.length

/-- The exact sums: `len` more bytes stay below the maximum and inside the
storage. -/
structure TakesExactly (b : CDynBuffer) (len : UInt32) : Prop where
  below_max : b.m_lLen.toNat + len.toNat ≤ b.m_lMaxSize.toNat
  inside : ∃ off, distance b.m_pBuffer b.m_pCur = some off ∧
    off + b.m_lLen.toNat + len.toNat ≤ b.m_lSize.toNat ∧
    off + b.m_lLen.toNat + len.toNat ≤ b.capacity

/-- Whenever `resize` returns true, the buffer takes `len` more bytes. -/
def Admits (b : CDynBuffer) (len : UInt32) (alloc : Option Nat) : Prop :=
  ∀ b', b.resize len alloc = some (b', true) → b'.TakesExactly len

/-- The sum of the lengths does not wrap around. -/
def Adds (b : CDynBuffer) (len : UInt32) : Prop := b.m_lLen.toNat + len.toNat < 2 ^ 32

/-- The size that `resize` inflates to does not wrap around, where half more of
the current size is not enough. -/
def Inflates (b : CDynBuffer) (len : UInt32) : Prop :=
  b.m_lSize / 2 * 3 + 2 < b.m_lLen + len →
    (b.m_lLen.toNat + len.toNat) / 2 * 3 + 2 < 2 ^ 32

/-- At the exits where `resize` returns true neither the sum of the lengths nor
the new size has wrapped around, and bytes are only admitted to a buffer that
owns storage. -/
def AdmitsExactly (b : CDynBuffer) (len : UInt32) (alloc : Option Nat) : Prop :=
  ¬b.Refuses len → ¬b.Stranded len →
    if b.m_lSize < b.m_lLen + len then
      alloc.isSome = true → b.getBuffer.isSome = true →
        b.m_lLen.toNat ≤ (b.nextSize len).toNat → b.Adds len ∧ b.Inflates len
    else
      match b.hasRoom len with
      | none => True
      | some true => b.Adds len ∧ (b.m_pBuffer = none → b.m_lLen.toNat + len.toNat = 0)
      | some false => b.getBuffer.isSome = true → b.Adds len

/-- The block is at least as large as the size that the buffer knows. -/
def Sized (b : CDynBuffer) : Prop := ∀ block, b.m_pBuffer = some block →
  b.m_lSize.toNat ≤ block.bytes.length

variable {b b' : CDynBuffer} {len : UInt32} {alloc : Option Nat}

theorem capacity_eq {block : Block} (h : b.m_pBuffer = some block) :
    b.capacity = block.bytes.length := by
  rw [capacity, h]

theorem Adds.toNat_add (h : b.Adds len) :
    (b.m_lLen + len).toNat = b.m_lLen.toNat + len.toNat := by
  rw [Adds] at h
  rw [UInt32.toNat_add]
  omega

/-- A sum below the maximum has not wrapped around. -/
theorem TakesExactly.adds (h : b.TakesExactly len) : b.Adds len := by
  have hMax := b.m_lMaxSize.toNat_lt
  have hSum := h.below_max
  rw [Adds]
  omega

/-- Without wrapping, what is not refused is below the maximum. -/
theorem Adds.below_max (h : b.Adds len) (hAccepted : ¬b.Refuses len) :
    b.m_lLen.toNat + len.toNat ≤ b.m_lMaxSize.toNat := by
  rw [toNat_add_le h] at hAccepted
  omega

/-- A new block takes the sum unless the inflated size wraps around. -/
theorem Adds.le_nextSize_iff (h : b.Adds len) (hAccepted : ¬b.Refuses len) :
    b.m_lLen.toNat + len.toNat ≤ (b.nextSize len).toNat ↔ b.Inflates len := by
  have hMax := h.below_max hAccepted
  have hSum := h.toNat_add
  have hRange : b.m_lLen.toNat + len.toNat < 2 ^ 32 := h
  have hInflated : ((b.m_lLen + len) / 2 * 3 + 2).toNat =
      ((b.m_lLen.toNat + len.toNat) / 2 * 3 + 2) % 2 ^ 32 := by
    rw [UInt32.toNat_add, UInt32.toNat_mul, UInt32.toNat_div, hSum]
    simp only [UInt32.reduceToNat]
    omega
  unfold nextSize grownSize Inflates
  simp only [UInt32.lt_iff_toNat_lt, hSum]
  by_cases hWraps : (b.m_lLen.toNat + len.toNat) / 2 * 3 + 2 < 2 ^ 32
  · rw [Nat.mod_eq_of_lt hWraps] at hInflated
    split_ifs <;> omega
  · -- less than one turn: what is left is below the sum
    have hOnce : ((b.m_lLen + len) / 2 * 3 + 2).toNat + 2 ^ 32 =
        (b.m_lLen.toNat + len.toNat) / 2 * 3 + 2 := by omega
    split_ifs <;> omega

/-! What the two operations that touch the content leave. -/

theorem grow_eq_some {newSize : UInt32} {id : Nat} (h : b.grow newSize id = some b') :
    b.getBuffer.isSome = true ∧ b.m_lLen.toNat ≤ newSize.toNat ∧
      ∃ block, block.bytes.length = newSize.toNat ∧ b'.m_pBuffer = some block ∧
        b'.m_pCur = some block.start ∧ b'.m_lSize = newSize ∧ b'.m_lLen = b.m_lLen ∧
        b'.m_lMaxSize = b.m_lMaxSize := by
  simp only [grow, Option.bind_eq_some_iff, Option.map_eq_some_iff] at h
  obtain ⟨live, hLoad, block, hStore, rfl⟩ := h
  obtain ⟨hLength, _⟩ := exists_owner_of_load hLoad
  have hFresh : some (Block.zeroed id newSize.toNat).start =
      get (some (Block.zeroed id newSize.toNat)) := rfl
  rw [hFresh] at hStore
  obtain ⟨fresh, hOwner, hFits, rfl⟩ := store_get_eq_some_iff.mp hStore
  obtain rfl := Option.some.inj hOwner
  have hReadable : b.getBuffer.isSome = true := by
    rw [getBuffer, hLoad]
    rfl
  rw [Block.length_zeroed, hLength] at hFits
  refine ⟨hReadable, hFits, _, ?_, rfl, rfl, rfl, rfl, rfl⟩
  have hAll : 0 + live.length ≤ (Block.zeroed id newSize.toNat).bytes.length := by
    rw [Block.length_zeroed, hLength]
    omega
  exact (length_overwrite hAll).trans (Block.length_zeroed _ _)

theorem compact_eq_some (h : b.compact = some b') :
    b.getBuffer.isSome = true ∧ ∃ block block', b.m_pBuffer = some block ∧
      block'.bytes.length = block.bytes.length ∧ b'.m_pBuffer = some block' ∧
      b'.m_pCur = some block'.start ∧ b'.m_lSize = b.m_lSize ∧ b'.m_lLen = b.m_lLen ∧
      b'.m_lMaxSize = b.m_lMaxSize := by
  simp only [compact, Option.bind_eq_some_iff, Option.map_eq_some_iff] at h
  obtain ⟨live, hLoad, block', hStore, rfl⟩ := h
  obtain ⟨block, hOwner, hFits, rfl⟩ := store_get_eq_some_iff.mp hStore
  have hReadable : b.getBuffer.isSome = true := by
    rw [getBuffer, hLoad]
    rfl
  have hAll : 0 + live.length ≤ block.bytes.length := by omega
  exact ⟨hReadable, block, _, hOwner, length_overwrite hAll, rfl, rfl, rfl, rfl, rfl⟩

theorem write_eq_some {data : Chars} (h : b.write data = some b') :
    ∃ block block', b.m_pBuffer = some block ∧ block'.bytes.length = block.bytes.length ∧
      b'.m_pBuffer = some block' ∧ b'.m_lSize = b.m_lSize := by
  unfold write at h
  split_ifs at h
  obtain ⟨block', hStore, rfl⟩ := Option.map_eq_some_iff.mp h
  cases hOwner : b.m_pBuffer with
  | none => simp [hOwner, store] at hStore
  | some block =>
      cases hCur : shift b.m_pCur b.m_lLen.toNat with
      | none => simp [hOwner, hCur, store] at hStore
      | some q =>
          rw [hOwner, hCur, store] at hStore
          split_ifs at hStore with hIn
          obtain rfl := Option.some.inj hStore
          exact ⟨block, _, rfl, length_overwrite hIn.2, rfl, rfl⟩

section Exits

/-- At the start of a block that takes the sum. -/
theorem takesExactly_start {block : Block} (hBuffer : b.m_pBuffer = some block)
    (hCur : b.m_pCur = some block.start)
    (hMax : b.m_lLen.toNat + len.toNat ≤ b.m_lMaxSize.toNat)
    (hSize : b.m_lLen.toNat + len.toNat ≤ b.m_lSize.toNat) (hSized : b.Sized) :
    b.TakesExactly len := by
  have hOwns := hSized block hBuffer
  refine ⟨hMax, 0, ?_, by omega, ?_⟩
  · rw [hBuffer, hCur]
    exact distance_of_le (Nat.zero_le _)
  · rw [capacity_eq hBuffer]
    omega

/-- What is readable and not longer than the new block is copied. -/
theorem exists_grow (id : Nat) (hReadable : b.getBuffer.isSome = true)
    (hFits : b.m_lLen.toNat ≤ (b.nextSize len).toNat) :
    ∃ c, b.countAttempted.grow (b.nextSize len) id = some c := by
  obtain ⟨live, hLoad⟩ := Option.isSome_iff_exists.mp hReadable
  obtain ⟨hLength, _⟩ := exists_owner_of_load hLoad
  have hStore : ∃ block, store (some (Block.zeroed id (b.nextSize len).toNat))
      (some (Block.zeroed id (b.nextSize len).toNat).start) live = some block := by
    refine ⟨_, store_of_le ?_⟩
    rw [Block.length_zeroed]
    omega
  obtain ⟨block, hStore⟩ := hStore
  have hLoad' : load b.countAttempted.m_pBuffer b.countAttempted.m_pCur
      b.countAttempted.m_lLen.toNat = some live := hLoad
  rw [grow, hLoad']
  simp only [Option.bind_some, hStore, Option.map_some]
  exact ⟨_, rfl⟩

theorem exists_compact (hReadable : b.getBuffer.isSome = true) : ∃ c, b.compact = some c := by
  obtain ⟨live, hLoad⟩ := Option.isSome_iff_exists.mp hReadable
  obtain ⟨hLength, block, hOwner, hLarge⟩ := exists_owner_of_load hLoad
  rw [← hLength] at hLarge
  have hStore := store_get_eq_some_iff.mpr ⟨block, hOwner, hLarge, rfl⟩
  have hLoad' : load b.m_pBuffer b.m_pCur b.m_lLen.toNat = some live := hLoad
  rw [compact, hLoad', Option.bind_some, hStore]
  exact ⟨_, rfl⟩

theorem admits_grow_iff (hAccepted : ¬b.Refuses len) (hStrand : ¬b.Stranded len)
    (hGrow : b.m_lSize < b.m_lLen + len) : b.Admits len alloc ↔ b.AdmitsExactly len alloc := by
  have hExactly : b.AdmitsExactly len alloc ↔ (alloc.isSome = true → b.getBuffer.isSome = true →
      b.m_lLen.toNat ≤ (b.nextSize len).toNat → b.Adds len ∧ b.Inflates len) := by
    rw [AdmitsExactly, if_pos hGrow]
    exact ⟨fun h => h hAccepted hStrand, fun h _ _ => h⟩
  rw [hExactly, Admits, resize_eq, if_neg hAccepted, if_neg hStrand, if_pos hGrow]
  cases alloc with
  | none => simp
  | some id =>
      dsimp only
      constructor
      · intro h _ hReadable hFits
        obtain ⟨c, hRun⟩ := exists_grow id hReadable hFits
        have hTakes := h c (by rw [hRun]; rfl)
        obtain ⟨_, _, block, hLength, hBuffer, hCur, hSize, hLen, _⟩ := grow_eq_some hRun
        have hAdds := hTakes.adds
        obtain ⟨off, _, hInside, _⟩ := hTakes.inside
        have hLen' : c.m_lLen = b.m_lLen := hLen
        rw [hSize, hLen'] at hInside
        rw [Adds, hLen'] at hAdds
        exact ⟨hAdds, (Adds.le_nextSize_iff hAdds hAccepted).mp (by omega)⟩
      · intro h c hRun
        obtain ⟨c', hGrown, hEq⟩ := Option.map_eq_some_iff.mp hRun
        obtain rfl : c' = c := congrArg Prod.fst hEq
        obtain ⟨hReadable, hFits, block, hLength, hBuffer, hCur, hSize, hLen, hMax⟩ :=
          grow_eq_some hGrown
        obtain ⟨hAdds, hInflates⟩ := h rfl hReadable hFits
        have hNext := (hAdds.le_nextSize_iff hAccepted).mpr hInflates
        have hBelow := hAdds.below_max hAccepted
        have hLen' : c'.m_lLen = b.m_lLen := hLen
        have hMax' : c'.m_lMaxSize = b.m_lMaxSize := hMax
        have hSized : c'.Sized := by
          intro block' hBlock
          obtain rfl := Option.some.inj (hBuffer.symm.trans hBlock)
          rw [hLength, hSize]
        apply takesExactly_start hBuffer hCur _ _ hSized
        · rw [hLen', hMax']
          exact hBelow
        · rw [hLen', hSize]
          exact hNext

/-- Pointers into no block have no distance but 0. -/
theorem eq_zero_of_distance {off : Nat} (hNone : b.m_pBuffer = none)
    (hOff : distance b.m_pBuffer b.m_pCur = some off) : off = 0 := by
  rw [hNone] at hOff
  cases hCur : b.m_pCur with
  | none =>
      rw [hCur] at hOff
      exact (Option.some.inj hOff).symm
  | some q => simp [hCur, distance] at hOff

/-- The buffer is kept as it is. -/
theorem takesExactly_iff (hSized : b.Sized) (hAccepted : ¬b.Refuses len)
    (hRoom : b.hasRoom len = some true) :
    b.TakesExactly len ↔
      b.Adds len ∧ (b.m_pBuffer = none → b.m_lLen.toNat + len.toNat = 0) := by
  obtain ⟨off, hOff, hTest⟩ := Option.map_eq_some_iff.mp hRoom
  constructor
  · intro hTakes
    refine ⟨hTakes.adds, fun hNone => ?_⟩
    obtain ⟨off', _, _, hOwns⟩ := hTakes.inside
    rw [capacity, hNone] at hOwns
    dsimp only at hOwns
    omega
  · rintro ⟨hAdds, hOwns⟩
    have hSum : off + b.m_lLen.toNat + len.toNat ≤ b.m_lSize.toNat := by
      have hExact := hAdds.toNat_add
      rw [UInt32.add_comm] at hExact
      have hTest' := of_decide_eq_true hTest
      omega
    refine ⟨hAdds.below_max hAccepted, off, hOff, hSum, ?_⟩
    cases hBuffer : b.m_pBuffer with
    | none =>
        have hZero := hOwns hBuffer
        have hOffZero := eq_zero_of_distance hBuffer hOff
        omega
    | some block =>
        have hLarge := hSized block hBuffer
        rw [capacity_eq hBuffer]
        omega

/-- The content moves to the start. -/
theorem compact_takesExactly (hSized : b.Sized) (hAccepted : ¬b.Refuses len) (hAdds : b.Adds len)
    (hFits : b.m_lLen.toNat + len.toNat ≤ b.m_lSize.toNat) (hCompact : b.compact = some b') :
    b'.TakesExactly len := by
  obtain ⟨_, block, block', hOwner, hLength, hBuffer, hCur, hSize, hLen, hMax⟩ :=
    compact_eq_some hCompact
  have hNew : b'.Sized := by
    intro other hOther
    obtain rfl := Option.some.inj (hBuffer.symm.trans hOther)
    rw [hLength, hSize]
    exact hSized block hOwner
  apply takesExactly_start hBuffer hCur _ _ hNew
  · rw [hLen, hMax]
    exact hAdds.below_max hAccepted
  · rw [hLen, hSize]
    exact hFits

theorem admits_stay_iff (hSized : b.Sized) (hAccepted : ¬b.Refuses len)
    (hStrand : ¬b.Stranded len) (hStay : ¬b.m_lSize < b.m_lLen + len) :
    b.Admits len alloc ↔ b.AdmitsExactly len alloc := by
  have hFits : b.Adds len → b.m_lLen.toNat + len.toNat ≤ b.m_lSize.toNat := by
    intro hAdds
    rw [UInt32.lt_iff_toNat_lt, hAdds.toNat_add] at hStay
    omega
  rw [AdmitsExactly, Admits, resize_eq, if_neg hAccepted, if_neg hStrand, if_neg hStay,
    if_neg hStay, forall_prop_of_true hAccepted, forall_prop_of_true hStrand]
  cases hRoom : b.hasRoom len with
  | none => simp
  | some room =>
      cases room with
      | true =>
          simp only [Option.bind_some, if_true, Option.some.injEq, Prod.mk.injEq, and_true]
          rw [forall_eq']
          exact takesExactly_iff hSized hAccepted hRoom
      | false =>
          simp only [Option.bind_some, Bool.false_eq_true, if_false]
          constructor
          · intro h hReadable
            obtain ⟨c, hRun⟩ := exists_compact hReadable
            have hTakes := h c (by rw [hRun]; rfl)
            obtain ⟨_, _, _, _, _, _, _, _, hLen, _⟩ := compact_eq_some hRun
            have hAdds := hTakes.adds
            rw [Adds, hLen] at hAdds
            exact hAdds
          · intro h c hRun
            obtain ⟨c', hCompact, hEq⟩ := Option.map_eq_some_iff.mp hRun
            obtain rfl : c' = c := congrArg Prod.fst hEq
            have hAdds := h (compact_eq_some hCompact).1
            exact compact_takesExactly hSized hAccepted hAdds (hFits hAdds) hCompact

/-- What `resize` admits fits exactly if and only if nothing has wrapped
around where it returns true. -/
theorem Sized.admits_iff (hSized : b.Sized) (len : UInt32) (alloc : Option Nat) :
    b.Admits len alloc ↔ b.AdmitsExactly len alloc := by
  by_cases hRefuses : b.Refuses len
  · refine iff_of_true ?_ fun hAccepted => absurd hRefuses hAccepted
    intro c hRun
    rw [resize_eq, if_pos hRefuses] at hRun
    cases hRun
  · by_cases hStrand : b.Stranded len
    · refine iff_of_true ?_ fun _ hNot => absurd hStrand hNot
      intro c hRun
      rw [resize_eq, if_neg hRefuses, if_pos hStrand] at hRun
      cases hRun
    · by_cases hGrow : b.m_lSize < b.m_lLen + len
      · exact admits_grow_iff hRefuses hStrand hGrow
      · exact admits_stay_iff hSized hRefuses hStrand hGrow

end Exits

/-! No call makes a block smaller than the size that its buffer knows. -/
section Reachable

variable {pair pair' : CDynBuffer} {ok : Bool}

theorem Sized.of_eq (h : b.Sized) (hBuffer : b'.m_pBuffer = b.m_pBuffer)
    (hSize : b'.m_lSize = b.m_lSize) : b'.Sized := by
  intro block hBlock
  rw [hSize]
  exact h block (hBuffer.symm.trans hBlock)

theorem sized_of_length {block : Block} (hBuffer : b.m_pBuffer = some block)
    (hLength : b.m_lSize.toNat ≤ block.bytes.length) : b.Sized := by
  intro other hOther
  obtain rfl := Option.some.inj (hBuffer.symm.trans hOther)
  exact hLength

theorem Sized.resize (h : b.Sized) (hRun : b.resize len alloc = some (b', ok)) : b'.Sized := by
  rw [resize_eq] at hRun
  split_ifs at hRun with hRefuses hStrand hGrow
  · obtain rfl : _ = b' := congrArg Prod.fst (Option.some.inj hRun)
    exact h.of_eq rfl rfl
  · obtain rfl : _ = b' := congrArg Prod.fst (Option.some.inj hRun)
    intro block hBlock
    cases hBlock
  · cases alloc with
    | none =>
        obtain rfl : _ = b' := congrArg Prod.fst (Option.some.inj hRun)
        exact h.of_eq rfl rfl
    | some id =>
        obtain ⟨c, hGrown, hEq⟩ := Option.map_eq_some_iff.mp hRun
        obtain rfl : c = b' := congrArg Prod.fst hEq
        obtain ⟨_, _, block, hLength, hBuffer, _, hSize, _⟩ := grow_eq_some hGrown
        apply sized_of_length hBuffer
        rw [hLength, hSize]
  · obtain ⟨room, _, hRest⟩ := Option.bind_eq_some_iff.mp hRun
    cases room with
    | true =>
        obtain rfl : b = b' := congrArg Prod.fst (Option.some.inj hRest)
        exact h
    | false =>
        obtain ⟨c, hCompact, hEq⟩ := Option.map_eq_some_iff.mp hRest
        obtain rfl : c = b' := congrArg Prod.fst hEq
        obtain ⟨_, block, block', hOwner, hLength, hBuffer, _, hSize, _⟩ :=
          compact_eq_some hCompact
        apply sized_of_length hBuffer
        rw [hLength, hSize]
        exact h block hOwner

theorem Sized.write (h : b.Sized) {data : Chars} (hRun : b.write data = some b') : b'.Sized := by
  obtain ⟨block, block', hOwner, hLength, hBuffer, hSize⟩ := write_eq_some hRun
  apply sized_of_length hBuffer
  rw [hLength, hSize]
  exact h block hOwner

theorem Sized.setDataConsumed (h : b.Sized) (lLen : UInt32) : (b.setDataConsumed lLen).Sized := by
  apply h.of_eq (setDataConsumed_m_pBuffer b lLen)
  unfold CDynBuffer.setDataConsumed
  dsimp only
  split_ifs <;> rfl

theorem Sized.perform (h : b.Sized) {call : LocalCall}
    (hRun : b.perform alloc call = some (b', ok)) : b'.Sized := by
  cases call with
  | resize len => exact h.resize hRun
  | append data =>
      obtain ⟨⟨c, accepted⟩, hResize, hRest⟩ := Option.bind_eq_some_iff.mp hRun
      have hNew := h.resize hResize
      cases accepted with
      | true =>
          obtain ⟨d, hWrite, hEq⟩ := Option.map_eq_some_iff.mp hRest
          obtain rfl : d.checkPeak = b' := congrArg Prod.fst hEq
          exact (hNew.write hWrite).of_eq rfl rfl
      | false =>
          obtain rfl : c = b' := congrArg Prod.fst (Option.some.inj hRest)
          exact hNew
  | reserve max_ =>
      simp only [CDynBuffer.perform, reserve, Option.map_map, Option.map_eq_some_iff] at hRun
      obtain ⟨⟨c, _⟩, hResize, hEq⟩ := hRun
      obtain rfl : c = b' := congrArg Prod.fst hEq
      have hRaised : (b.raiseMax max_).Sized := h.of_eq rfl rfl
      exact hRaised.resize hResize
  | consume lLen =>
      obtain rfl : _ = b' := congrArg Prod.fst (Option.some.inj hRun)
      exact h.setDataConsumed lLen
  | consumeLong =>
      simp only [CDynBuffer.perform, CDynBuffer.consumeLong] at hRun
      split_ifs at hRun
      · obtain rfl : _ = b' := congrArg Prod.fst (Option.some.inj hRun)
        exact h.setDataConsumed 4
      · cases hRun
  | clear =>
      obtain rfl : _ = b' := congrArg Prod.fst (Option.some.inj hRun)
      exact h.of_eq rfl rfl
  | dataRead data =>
      obtain ⟨c, hWrite, hEq⟩ := Option.map_eq_some_iff.mp hRun
      obtain rfl : c = b' := congrArg Prod.fst hEq
      exact h.write hWrite
  | clearStats =>
      obtain rfl : _ = b' := congrArg Prod.fst (Option.some.inj hRun)
      exact h.of_eq rfl rfl

theorem Sized.enlargeForSwap (h : b.Sized) (pair : CDynBuffer) (alloc : Option Nat) :
    (b.enlargeForSwap pair alloc).Sized := by
  unfold CDynBuffer.enlargeForSwap
  by_cases hSmall : b.m_lSize < pair.m_lSize
  · rw [if_pos hSmall]
    cases alloc with
    | none => exact h
    | some id =>
        apply sized_of_length rfl
        rw [Block.length_zeroed]
        rw [UInt32.lt_iff_toNat_lt] at hSmall
        dsimp only
        split_ifs
        · exact Nat.le_of_lt hSmall
        · exact Nat.le_refl _
  · rw [if_neg hSmall]
    exact h

theorem Sized.swapBuffer (h : b.Sized) (hPair : pair.Sized)
    (hRun : b.swapBuffer pair alloc = some ((b', pair'), ok)) : b'.Sized ∧ pair'.Sized := by
  have hLarge := h.enlargeForSwap pair alloc
  unfold CDynBuffer.swapBuffer at hRun
  dsimp only at hRun
  split_ifs at hRun
  · cases hRun
    exact ⟨hPair.of_eq rfl rfl, hLarge.of_eq rfl rfl⟩
  · cases hRun
    exact ⟨hLarge, hPair⟩

theorem Sized.copyFrom (h : b.Sized) {copy_ : CDynBuffer}
    (hRun : b.copyFrom copy_ alloc = some b') : b'.Sized := by
  simp only [CDynBuffer.copyFrom, Option.bind_eq_some_iff, Option.map_eq_some_iff] at hRun
  obtain ⟨c, hPrepare, bytes, _, target, hStore, rfl⟩ := hRun
  have hSized : c.Sized := by
    split_ifs at hPrepare
    · obtain ⟨⟨d, _⟩, hResize, rfl⟩ := Option.map_eq_some_iff.mp hPrepare
      exact h.resize hResize
    · obtain rfl := Option.some.inj hPrepare
      exact h
  obtain ⟨own, hOwn, hFits, rfl⟩ := store_get_eq_some_iff.mp hStore
  have hLength : (overwrite own.bytes 0 bytes).length = own.bytes.length :=
    length_overwrite (by omega)
  have hOwns := hSized own hOwn
  rw [← hLength] at hOwns
  intro block hBlock
  obtain rfl := Option.some.inj hBlock
  exact hOwns

variable {ι : Type*} [DecidableEq ι]

theorem step_sized (w : World ι) (call : WorldCall ι) (w' : World ι)
    (h : w.buffers.All Sized) (hStep : step w call = some w') : w'.buffers.All Sized := by
  cases call with
  | construct i initSize maxSize =>
      simp only [step, Option.some.injEq] at hStep
      subst w'
      apply h.set i
      apply sized_of_length rfl
      exact Nat.le_of_eq (Block.length_zeroed _ _).symm
  | on i call ok =>
      simp only [step, Option.bind_eq_some_iff, Option.map_eq_some_iff] at hStep
      obtain ⟨b, hGet, ⟨b', res⟩, hRun, rfl⟩ := hStep
      exact h.set i ((h i b hGet).perform hRun)
  | swap i j ok =>
      simp only [step] at hStep
      split_ifs at hStep
      simp only [Option.bind_eq_some_iff, Option.map_eq_some_iff] at hStep
      obtain ⟨b, hGet, pair, hPair, ⟨⟨b', pair'⟩, res⟩, hRun, rfl⟩ := hStep
      obtain ⟨hNew, hNewPair⟩ := (h i b hGet).swapBuffer (h j pair hPair) hRun
      exact (h.set i hNew).set j hNewPair
  | copyFrom i j ok =>
      simp only [step] at hStep
      split_ifs at hStep
      simp only [Option.bind_eq_some_iff, Option.map_eq_some_iff] at hStep
      obtain ⟨b, hGet, copy_, _, b', hRun, rfl⟩ := hStep
      exact h.set i ((h i b hGet).copyFrom hRun)

/-- In every state of every run, for every buffer and every length. -/
theorem always_admits_iff_admitsExactly (calls : List (WorldCall ι)) :
    Always step (fun w => w.buffers.All fun b => ∀ len alloc,
      b.Admits len alloc ↔ b.AdmitsExactly len alloc) World.initial calls := by
  have hStart : (World.initial : World ι).buffers.All Sized := by
    intro i b hb
    simp [World.initial, Objects.empty] at hb
  have hAlways := always_of_invariant step_sized calls hStart
  exact hAlways.mono fun w hAll => hAll.mono fun b hSized => hSized.admits_iff

end Reachable

def threeBytes : Chars := ⟨[65, 66, 67], by decide⟩

/-- Three bytes and `2 ^ 32 - 1` more are two bytes modulo `2 ^ 32`. -/
theorem wrapped_sum_admitted :
    ∃ (w : World Unit) (b : CDynBuffer),
      run step World.initial [.construct () 4 20, .on () (.append threeBytes) true] = some w ∧
      w.buffers.get () = some b ∧ b.m_lSize ≤ b.m_lMaxSize ∧
      b.resize 4294967295 none = some (b, true) ∧ ¬b.Admits 4294967295 none := by
  have hFinish : ∃ (w : World Unit) (b : CDynBuffer),
      run step World.initial [.construct () 4 20, .on () (.append threeBytes) true] = some w ∧
      w.buffers.get () = some b ∧ b.m_lSize ≤ b.m_lMaxSize ∧ b.m_lLen = 3 ∧
      b.resize 4294967295 none = some (b, true) :=
    ⟨_, _, rfl, rfl, by decide, rfl, rfl⟩
  obtain ⟨w, b, hRun, hGet, hSize, hLen, hResize⟩ := hFinish
  refine ⟨w, b, hRun, hGet, hSize, hResize, fun hAdmits => ?_⟩
  have hAdds := (hAdmits b hResize).adds
  rw [Adds, hLen] at hAdds
  exact absurd hAdds (by decide)

end CppPerf.Buffer.CDynBuffer
