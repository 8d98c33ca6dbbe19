import CppPerf.HashTable.BucketUpdate

/-! The bucket table as a finite set. A lookup that meets an erased slot in a
full home bucket never looks at the overflow area, so the table is a set only
as long as no home bucket that has spilled loses a key. -/
namespace CppPerf.HashTable.HashTableBucket

open Indexed SetHistory Transition

variable {α : Type*} [BEq α] [Hashable α]

/-- The table answers like the finite set that its history describes. -/
structure RefinesSet (t : HashTableBucket α) (past : List (Event α)) : Prop where
  find_iff : ∀ x, (t.find x).isSome = member past x
  unique : ∀ s s' d d', t.Live s d → t.Live s' d' → d == d' → s = s'
  size_eq : t.size = (keysOf past).length

/-- The key is live in a slot of its home bucket. -/
def LiveAtHome (t : HashTableBucket α) (x : α) : Prop :=
  ∃ s d, s < t.overflow ∧ t.Live s d ∧ d == x

/-- Some live key of the home bucket of `x` sits in the overflow area. -/
def Spilled (t : HashTableBucket α) (x : α) : Prop :=
  ∃ s d, t.overflow ≤ s ∧ t.Live s d ∧ t.home d = t.home x

/-- No erasure takes a key out of a home bucket that has live overflow. -/
def EraseSparesSpilled : HashTableBucket α × List (Event α) → Call α → Prop
  | (t, _), .erase x => ¬(t.LiveAtHome x ∧ t.Spilled x)
  | _, _ => True

/-- Invariant of the histories in which every erasure meets the guard. -/
structure Consistent (t : HashTableBucket α) (past : List (Event α)) : Prop where
  wf : t.WellFormed
  visible : ∀ s d, t.overflow ≤ s → t.Live s d → t.FullWithout d (t.home d)
  entries_eq : t.iEntries.toNat = t.pElements.count BucketElement.live
  keys_eq : (keysOf past).length = t.pElements.count BucketElement.live
  member_iff : ∀ x, member past x = true ↔ ∃ s d, t.Live s d ∧ d == x

namespace Consistent

variable {t t' : HashTableBucket α} {past : List (Event α)}

theorem size_ne_zero (hc : t.Consistent past) : t.pElements.size ≠ 0 := by
  rw [hc.wf.size_eq]
  simp [overflowSize]

theorem inArea_overflow (hc : t.Consistent past) {s d : _} (hLive : t.Live s d)
    (hGe : t.overflow ≤ s) : InArea t.overflow s := by
  refine ⟨hGe, ?_⟩
  by_contra hFar
  have hNone := hc.wf.beyond s (by omega)
  rw [hLive.1] at hNone
  cases hNone

/-- The counter cannot wrap: it never exceeds the number of slots. -/
theorem count_lt (hc : t.Consistent past) :
    t.pElements.count BucketElement.live + 1 < 2 ^ 32 := by
  have hCount := t.pElements.count_le_size BucketElement.live
  have hBuckets := hc.wf.buckets_le
  rw [hc.wf.size_eq, hc.wf.overflow_eq] at hCount
  simp only [bucketSize, overflowSize] at hCount
  omega

variable [EquivBEq α]

theorem count_pos (hc : t.Consistent past) {s : Nat} {d : α} (hLive : t.Live s d) :
    0 < t.pElements.count BucketElement.live := by
  have hMem := (hc.member_iff d).mpr ⟨s, d, hLive, BEq.rfl⟩
  obtain ⟨key, hKey, _⟩ := (member_iff_keysOf past d).mp hMem
  rw [← hc.keys_eq]
  exact List.length_pos_of_mem hKey

variable [LawfulHashable α]

omit [EquivBEq α] in
/-- A live copy of the key lies in its home bucket or in the overflow area. -/
theorem area_of_live (hc : t.Consistent past) {x d : α} {s : Nat} (hLive : t.Live s d)
    (hEq : d == x) : InArea (t.home x) s ∨ InArea t.overflow s := by
  rcases Nat.lt_or_ge s t.overflow with hLt | hGe
  · rw [← home_congr t hEq]
    exact Or.inl (hc.wf.home_eq s d hLt hLive.1)
  · exact Or.inr (hc.inArea_overflow hLive hGe)

/-- A lookup that returns a slot returns the only slot where the key can be
live. This is where overflow keys must be visible behind their home bucket. -/
theorem locate_unique (hc : t.Consistent past) {x d : α} {s s' : Nat}
    (hLocate : t.locate x = some s) (hLive : t.Live s' d) (hEq : d == x) : s' = s := by
  by_contra hne
  rcases hc.wf.locate_some hLocate with hPick | ⟨hFull, hPick⟩
  · rcases hc.area_of_live hLive hEq with hHome | hOver
    · simpa [hEq] using hPick.others s' d hHome hne hLive.1
    · have hVisible := hc.visible s' d hOver.1 hLive
      rw [home_congr t hEq] at hVisible
      obtain ⟨d', hLive', hNe⟩ := hVisible s hPick.inArea
      rcases hPick.reusable with ⟨d'', hData, hMatch⟩ | hDead
      · have hSame : d' = d'' := Option.some.inj (hLive'.1.symm.trans hData)
        subst d''
        rw [BEq.congr_right (BEq.symm hEq)] at hMatch
        rw [hMatch] at hNe
        cases hNe
      · have hAlive := (t.live_iff_exists s).mpr ⟨d', hLive'⟩
        rw [hDead] at hAlive
        cases hAlive
  · rcases hc.area_of_live hLive hEq with hHome | hOver
    · obtain ⟨d', hLive', hNe⟩ := hFull s' hHome
      have hSame : d' = d := Option.some.inj (hLive'.1.symm.trans hLive.1)
      rw [hSame, hEq] at hNe
      cases hNe
    · simpa [hEq] using hPick.others s' d hOver hne hLive.1

theorem absent_of_locate_none (hc : t.Consistent past) {x : α} (hLocate : t.locate x = none) :
    ∀ s d, t.Live s d → (d == x) = false := by
  intro s d hLive
  by_contra hMatch
  have hEq : d == x := by simpa using hMatch
  obtain ⟨hHome, hOver⟩ := hc.wf.locate_none hLocate
  have hFull : ∃ d', t.Live s d' ∧ (d' == x) = false := by
    rcases hc.area_of_live hLive hEq with hIn | hIn
    · exact hHome s hIn
    · exact hOver s hIn
  obtain ⟨d', hLive', hNe⟩ := hFull
  have hSame : d' = d := Option.some.inj (hLive'.1.symm.trans hLive.1)
  rw [hSame, hEq] at hNe
  cases hNe

/-- A live slot that a lookup returns holds the key looked for. -/
theorem match_of_locate_live (hc : t.Consistent past) {x d : α} {s : Nat}
    (hLocate : t.locate x = some s) (hLive : t.Live s d) : d == x := by
  have hReuse : (∃ d, (t.pElements.get s).pData = some d ∧ d == x) ∨
      (t.pElements.get s).live = false := by
    rcases hc.wf.locate_some hLocate with hPick | ⟨_, hPick⟩ <;> exact hPick.reusable
  rcases hReuse with ⟨d', hData, hEq⟩ | hDead
  · rwa [Option.some.inj (hLive.1.symm.trans hData)]
  · have hAlive := (t.live_iff_exists s).mpr ⟨d, hLive⟩
    rw [hDead] at hAlive
    cases hAlive

theorem find_isSome_iff (hc : t.Consistent past) (x : α) :
    (t.find x).isSome = true ↔ ∃ s d, t.Live s d ∧ d == x := by
  unfold find
  rw [if_neg hc.size_ne_zero]
  cases hLocate : t.locate x with
  | none =>
      have hAbsent := hc.absent_of_locate_none hLocate
      simp only [Option.isSome_none, Bool.false_eq_true, false_iff, not_exists, not_and]
      intro s d hLive
      simp [hAbsent s d hLive]
  | some s =>
      cases hAlive : (t.pElements.get s).live with
      | true =>
          obtain ⟨d, hLive⟩ := (t.live_iff_exists s).mp hAlive
          have hEq := hc.match_of_locate_live hLocate hLive
          simp only [hLive.1, hLive.2, Option.isNone_some, Bool.or_self, Bool.false_eq_true,
            ↓reduceIte, Option.isSome_some, true_iff]
          exact ⟨s, d, hLive, hEq⟩
      | false =>
          have hSkip :
              ((t.pElements.get s).bErased || (t.pElements.get s).pData.isNone) = true := by
            cases hData : (t.pElements.get s).pData <;> simp_all [BucketElement.live]
          simp only [hSkip, ↓reduceIte, Option.isSome_none, Bool.false_eq_true, false_iff,
            not_exists, not_and]
          intro s' d hLive hEq
          have hSame := hc.locate_unique hLocate hLive hEq
          subst s'
          have hLive' := (t.live_iff_exists s).mpr ⟨d, hLive⟩
          rw [hAlive] at hLive'
          cases hLive'

theorem live_unique (hc : t.Consistent past) {s s' : Nat} {d d' : α} (hLive : t.Live s d)
    (hLive' : t.Live s' d') (hEq : d == d') : s = s' := by
  cases hLocate : t.locate d' with
  | none => simpa [hEq] using hc.absent_of_locate_none hLocate s d hLive
  | some slot =>
      have hFirst := hc.locate_unique hLocate hLive hEq
      have hSecond := hc.locate_unique hLocate hLive' BEq.rfl
      exact hFirst.trans hSecond.symm

/-- The invariant is all that a set needs. -/
theorem refinesSet (hc : t.Consistent past) : t.RefinesSet past where
  find_iff := by
    intro x
    rw [Bool.eq_iff_iff, hc.find_isSome_iff x, hc.member_iff x]
  unique := fun s s' d d' hLive hLive' hEq => hc.live_unique hLive hLive' hEq
  size_eq := hc.entries_eq.trans hc.keys_eq.symm

/-- The area a lookup ended in, as `PutAt.wellFormed` wants it. -/
theorem pick_of_locate (hc : t.Consistent past) {x : α} {s : Nat}
    (hLocate : t.locate x = some s) :
    ∃ base, base % bucketSize = 0 ∧ base ≤ t.overflow ∧ (s < t.overflow → base = t.home x) ∧
      t.Pick x base s := by
  rcases hc.wf.locate_some hLocate with hPick | ⟨_, hPick⟩
  · refine ⟨t.home x, t.home_mod x, ?_, fun _ => rfl, hPick⟩
    exact (Nat.le_add_right _ _).trans (hc.wf.home_lt x)
  · refine ⟨t.overflow, hc.wf.overflow_mod, Nat.le_refl _, ?_, hPick⟩
    intro hLt
    exact absurd hPick.inArea.1 (by omega)

/-- Insertion keeps overflow keys visible: it writes a home slot only when the
key is not hidden in the overflow area, and leaves no home slot erased. -/
private theorem visible_put (hc : t.Consistent past) {x : α} {s : Nat}
    (hLocate : t.locate x = some s) (hPut : t.PutAt x s t') :
    ∀ s₁ d, t'.overflow ≤ s₁ → t'.Live s₁ d → t'.FullWithout d (t'.home d) := by
  intro s₁ d hGe hLive s₂ hIn
  rw [hPut.overflow_eq] at hGe
  rw [hPut.home_eq] at hIn
  rcases hPut.live_cases hLive with ⟨hs₁, hd⟩ | ⟨hne, hOld⟩
  · -- The written slot is the overflow one: its home bucket was full of others.
    rw [hs₁] at hGe
    rw [hd] at hIn ⊢
    have hFull : t.FullWithout x (t.home x) := by
      rcases hc.wf.locate_some hLocate with hPick | ⟨hFull, _⟩
      · have hLt := hc.wf.home_lt x
        have hHigh := hPick.inArea.2
        omega
      · exact hFull
    obtain ⟨d', hLive', hNe⟩ := hFull s₂ hIn
    have hs₂ : s₂ ≠ s := by
      have hLt := hc.wf.home_lt x
      have hHigh := hIn.2
      omega
    exact ⟨d', (hPut.live_of_ne hs₂ d').mpr hLive', hNe⟩
  · obtain ⟨d', hLive', hNe⟩ := hc.visible s₁ d hGe hOld s₂ hIn
    by_cases hs₂ : s₂ = s
    · -- The written slot was live already, so it held an equal key.
      subst s₂
      have hMatch := hc.match_of_locate_live hLocate hLive'
      rw [BEq.congr_left hMatch] at hNe
      exact ⟨x, hPut.live_self, hNe⟩
    · exact ⟨d', (hPut.live_of_ne hs₂ d').mpr hLive', hNe⟩

theorem put (hc : t.Consistent past) {x : α} {s : Nat} (hLocate : t.locate x = some s)
    (hPut : t.PutAt x s t') : t'.Consistent (.inserted x :: past) := by
  obtain ⟨base, hBase, hLe, hArea, hPick⟩ := hc.pick_of_locate hLocate
  have hSlot : s < t.pElements.size := hc.wf.slot_lt_size hLe hPick.inArea
  have hMember : member past x = (t.pElements.get s).live := by
    rw [Bool.eq_iff_iff, hc.member_iff x, live_iff_exists]
    constructor
    · rintro ⟨s', d, hLive, hEq⟩
      rw [← hc.locate_unique hLocate hLive hEq]
      exact ⟨d, hLive⟩
    · rintro ⟨d, hLive⟩
      exact ⟨s, d, hLive, hc.match_of_locate_live hLocate hLive⟩
  have hCount := t.pElements.count_set BucketElement.live s
    ⟨(hash x).toUInt32, some x, false⟩ hSlot
  rw [← hPut.elements_eq] at hCount
  have hNew : (⟨(hash x).toUInt32, some x, false⟩ : BucketElement α).live = true := rfl
  rw [hNew] at hCount
  have hBound := hc.count_lt
  have hEntries := hc.entries_eq
  have hKeys := hc.keys_eq
  refine ⟨hPut.wellFormed hc.wf hBase hLe hArea hPick, hc.visible_put hLocate hPut, ?_, ?_, ?_⟩
  · rw [hPut.entries_eq, UInt32.toNat_add]
    cases hAlive : (t.pElements.get s).live <;> simp [hAlive] at hCount ⊢ <;> omega
  · rw [length_keysOf_inserted, hMember]
    cases hAlive : (t.pElements.get s).live <;> simp [hAlive] at hCount ⊢ <;> omega
  · intro y
    rw [member_inserted, Bool.or_eq_true, hc.member_iff y]
    constructor
    · rintro (hxy | ⟨s', d, hLive, hEq⟩)
      · exact ⟨s, x, hPut.live_self, hxy⟩
      · by_cases hs : s' = s
        · subst s'
          have hMatch := hc.match_of_locate_live hLocate hLive
          exact ⟨s, x, hPut.live_self, BEq.trans (BEq.symm hMatch) hEq⟩
        · exact ⟨s', d, (hPut.live_of_ne hs d).mpr hLive, hEq⟩
    · rintro ⟨s', d, hLive, hEq⟩
      rcases hPut.live_cases hLive with ⟨_, rfl⟩ | ⟨_, hOld⟩
      · exact Or.inl hEq
      · exact Or.inr ⟨s', d, hOld, hEq⟩

omit [EquivBEq α] in
/-- A slot of the home bucket of an overflow key may be flagged unless the key
of the slot has spilled. -/
theorem visible_drop (hc : t.Consistent past) {x d : α} {s : Nat} (hLive : t.Live s d)
    (hEq : d == x) (hDrop : t.DropAt s t') (hGuard : ¬(t.LiveAtHome x ∧ t.Spilled x))
    {s₁ : Nat} {d₁ : α} (hGe : t'.overflow ≤ s₁) (hLive₁ : t'.Live s₁ d₁) :
    t'.FullWithout d₁ (t'.home d₁) := by
  intro s₂ hIn
  rw [hDrop.overflow_eq] at hGe
  rw [hDrop.home_eq] at hIn
  obtain ⟨hOld₁, _⟩ := (hDrop.live_iff s₁ d₁).mp hLive₁
  obtain ⟨d₂, hLive₂, hNe⟩ := hc.visible s₁ d₁ hGe hOld₁ s₂ hIn
  refine ⟨d₂, (hDrop.live_iff s₂ d₂).mpr ⟨hLive₂, ?_⟩, hNe⟩
  rintro rfl
  -- The flagged slot would be a home slot of the spilled bucket.
  have hLt : s₂ < t.overflow := by
    have hHome := hc.wf.home_lt d₁
    have hHigh := hIn.2
    omega
  have hHomeX := hc.wf.home_eq s₂ d hLt hLive.1
  rw [home_congr t hEq] at hHomeX
  have hSame : t.home d₁ = t.home x := by
    have h₁ := t.home_mod d₁
    have h₂ := t.home_mod x
    simp only [InArea, bucketSize] at hIn hHomeX h₁ h₂
    omega
  exact hGuard ⟨⟨s₂, d, hLt, hLive, hEq⟩, ⟨s₁, d₁, hGe, hOld₁, hSame⟩⟩

/-- The members are those of the slots that stay live. -/
theorem member_drop (hc : t.Consistent past) {x d : α} {s : Nat} (hLive : t.Live s d)
    (hEq : d == x) (hDrop : t.DropAt s t') (y : α) :
    member (.erased x :: past) y = true ↔ ∃ s' d', t'.Live s' d' ∧ d' == y := by
  rw [member_erased, Bool.and_eq_true, hc.member_iff y]
  constructor
  · rintro ⟨hxy, s', d', hLive', hEq'⟩
    refine ⟨s', d', (hDrop.live_iff s' d').mpr ⟨hLive', ?_⟩, hEq'⟩
    rintro rfl
    have hSame : d' = d := Option.some.inj (hLive'.1.symm.trans hLive.1)
    subst d'
    rw [BEq.congr_left (BEq.symm hEq), hEq'] at hxy
    cases hxy
  · rintro ⟨s', d', hLive', hEq'⟩
    obtain ⟨hOld', hne⟩ := (hDrop.live_iff s' d').mp hLive'
    refine ⟨?_, s', d', hOld', hEq'⟩
    by_contra hxy
    have hSame : x == y := by simpa using hxy
    exact hne (hc.live_unique hOld' hLive
      (BEq.trans hEq' (BEq.trans (BEq.symm hSame) (BEq.symm hEq))))

/-- Erasure of a live slot. Overflow keys stay visible when the slot is not a
home slot of a bucket that has spilled. -/
theorem drop (hc : t.Consistent past) {x d : α} {s : Nat} (hLive : t.Live s d) (hEq : d == x)
    (hDrop : t.DropAt s t') (hGuard : ¬(t.LiveAtHome x ∧ t.Spilled x)) :
    t'.Consistent (.erased x :: past) := by
  have hSlot : s < t.pElements.size := by
    rcases hc.area_of_live hLive hEq with hIn | hIn
    · exact hc.wf.slot_lt_size ((Nat.le_add_right _ _).trans (hc.wf.home_lt x)) hIn
    · exact hc.wf.slot_lt_size (Nat.le_refl _) hIn
  have hMember : member past x = true := (hc.member_iff x).mpr ⟨s, d, hLive, hEq⟩
  have hOld : (t.pElements.get s).live = true := (t.live_iff_exists s).mpr ⟨d, hLive⟩
  have hCount := t.pElements.count_set BucketElement.live s
    { t.pElements.get s with bErased := true } hSlot
  have hNew : ({ t.pElements.get s with bErased := true } : BucketElement α).live = false := by
    simp [BucketElement.live]
  rw [← hDrop.elements_eq, hOld, hNew, Bool.toNat_true, Bool.toNat_false] at hCount
  have hBound := hc.count_lt
  have hEntries := hc.entries_eq
  have hKeys := hc.keys_eq
  have hPos := hc.count_pos hLive
  have hLen := length_keysOf_erased past x hMember
  refine ⟨hDrop.wellFormed hc.wf, ?_, ?_, by omega, hc.member_drop hLive hEq hDrop⟩
  · intro s₁ d₁ hGe hLive₁
    exact hc.visible_drop hLive hEq hDrop hGuard hGe hLive₁
  · rw [hDrop.entries_eq, UInt32.toNat_sub]
    simp only [UInt32.reduceToNat]
    omega

theorem erase_of_live (hc : t.Consistent past) {x d : α} {s : Nat} (hLive : t.Live s d)
    (hEq : d == x) : t.erase x = (t.removeElement s, 1) := by
  have hSize : ¬(t.pElements.size = 0 ∨ t.size < 1) := by
    have hPos := hc.count_pos hLive
    have hEntries := hc.entries_eq
    have hSlots := hc.size_ne_zero
    simp only [size]
    omega
  unfold erase
  rw [if_neg hSize]
  cases hLocate : t.locate x with
  | none => simpa [hEq] using hc.absent_of_locate_none hLocate s d hLive
  | some slot =>
      obtain rfl := hc.locate_unique hLocate hLive hEq
      simp [hLive.1, hLive.2]

theorem erase_of_absent (hc : t.Consistent past) {x : α}
    (hAbsent : ∀ s d, t.Live s d → (d == x) = false) : t.erase x = (t, 0) := by
  unfold erase
  split_ifs with hSize
  · rfl
  · cases hLocate : t.locate x with
    | none => rfl
    | some slot =>
        have hDead : (t.pElements.get slot).live = false := by
          by_contra hAlive
          obtain ⟨d, hLive⟩ := (t.live_iff_exists slot).mp (by simpa using hAlive)
          simpa [hAbsent slot d hLive] using hc.match_of_locate_live hLocate hLive
        cases hData : (t.pElements.get slot).pData <;> simp_all [BucketElement.live]

end Consistent

/-- A constructed table after `HashInitialize`. -/
def initial (iDesiredSize : Nat) : HashTableBucket α × List (Event α) :=
  (hashInitialize {} iDesiredSize, [])

theorem initial_consistent (iDesiredSize : Nat) :
    (initial (α := α) iDesiredSize).1.Consistent (initial iDesiredSize).2 := by
  have hGet : ∀ s,
      ((hashInitialize ({} : HashTableBucket α) iDesiredSize).pElements.get s) = {} := by
    intro s
    simp [hashInitialize, resetStats, Vec.empty, Vec.resize, overflowSize]
  have hNotLive : ∀ s d, ¬(hashInitialize ({} : HashTableBucket α) iDesiredSize).Live s d := by
    intro s d hLive
    rw [Live, hGet s] at hLive
    cases hLive.1
  have hCount : (hashInitialize ({} : HashTableBucket α) iDesiredSize).pElements.count
      BucketElement.live = 0 := by
    apply Vec.count_eq_zero
    intro s _
    rw [hGet s]
    rfl
  refine ⟨⟨calcSize_pos _, calcSize_le _, rfl, ?_, ?_, ?_, ?_, ?_, ?_⟩, ?_, ?_, ?_, ?_⟩
  · simp [initial, hashInitialize, resetStats, Vec.empty, Vec.resize, overflowSize]
  all_goals simp only [initial]
  · intro s d hData
    rw [hGet s] at hData
    cases hData
  · intro s d _ hData
    rw [hGet s] at hData
    cases hData
  · intro s _
    rw [hGet s]
  · intro s s' _ _ _
    rw [hGet s]
  · intro s s' d d' _ hData
    rw [hGet s] at hData
    cases hData
  · intro s d _ hLive
    exact absurd hLive (hNotLive s d)
  · rw [hCount]
    rfl
  · rw [hCount]
    rfl
  · intro x
    simp [hNotLive]

variable [EquivBEq α] [LawfulHashable α]

/-- Every call that meets the guard keeps the invariant. -/
theorem step_consistent (s : HashTableBucket α × List (Event α)) (call : Call α)
    (s' : HashTableBucket α × List (Event α)) (hc : s.1.Consistent s.2)
    (hGuard : EraseSparesSpilled s call) (hStep : step s call = some s') :
    s'.1.Consistent s'.2 := by
  obtain ⟨t, past⟩ := s
  cases call with
  | insert x =>
      cases hLocate : t.locate x with
      | none => simp [step, insert_of_locate_none hLocate] at hStep
      | some slot =>
          obtain ⟨hPos, hPut⟩ := insert_of_locate_some hLocate
          rcases hInsert : t.insert x with ⟨t', pos, created⟩
          rw [hInsert] at hPos hPut
          simp only at hPos hPut
          subst pos
          simp only [step, hInsert, Option.some.injEq] at hStep
          subst s'
          exact hc.put hLocate hPut
  | erase x =>
      by_cases hThere : ∃ slot d, t.Live slot d ∧ d == x
      · obtain ⟨slot, d, hLive, hEq⟩ := hThere
        simp only [step, hc.erase_of_live hLive hEq, ↓reduceIte, Option.some.injEq] at hStep
        subst s'
        exact hc.drop hLive hEq (removeElement_dropAt hLive) hGuard
      · have hAbsent : ∀ slot d, t.Live slot d → (d == x) = false := by
          intro slot d hLive
          by_contra hMatch
          exact hThere ⟨slot, d, hLive, by simpa using hMatch⟩
        simp only [step, hc.erase_of_absent hAbsent, Nat.zero_ne_one, ↓reduceIte,
          Option.some.injEq] at hStep
        subst s'
        exact hc
  | find x =>
      simp only [step, Option.some.injEq] at hStep
      subst s'
      exact hc

/-- The lookup of an overflow key stops at an erased slot of its home bucket. -/
theorem find_after_drop {t t' : HashTableBucket α} {past : List (Event α)}
    (hc : t.Consistent past) {slot : Nat} (hDrop : t.DropAt slot t')
    {spilled : Nat} {y : α} (hGe : t.overflow ≤ spilled) (hLiveY : t.Live spilled y)
    (hNear : InArea (t.home y) slot) : t'.find y = none := by
  have hw := hDrop.wellFormed hc.wf
  have hSize : t'.pElements.size ≠ 0 := by
    rw [hDrop.elements_eq]
    exact hc.size_ne_zero
  unfold find
  rw [if_neg hSize]
  cases hLocate : t'.locate y with
  | none => rfl
  | some slot' =>
      rcases hw.locate_some hLocate with hPick | ⟨hFull, _⟩
      · rw [hDrop.home_eq] at hPick
        have hDead : (t'.pElements.get slot').live = false := by
          rcases hPick.reusable with ⟨d', hData, hMatch⟩ | hDead
          · rw [hDrop.data_eq] at hData
            obtain ⟨d'', hLive', hNe⟩ := hc.visible spilled y hGe hLiveY slot' hPick.inArea
            rw [Option.some.inj (hLive'.1.symm.trans hData), hMatch] at hNe
            cases hNe
          · exact hDead
        cases hData : (t'.pElements.get slot').pData <;> simp_all [BucketElement.live]
      · rw [hDrop.home_eq] at hFull
        obtain ⟨d', hLive', _⟩ := hFull slot hNear
        exact absurd hLive' (hDrop.not_live_self d')

/-- An erasure that does not meet the guard hides a live overflow key. -/
theorem step_hides (s : HashTableBucket α × List (Event α)) (call : Call α)
    (s' : HashTableBucket α × List (Event α)) (hc : s.1.Consistent s.2)
    (hBad : ¬EraseSparesSpilled s call) (hStep : step s call = some s') :
    ¬s'.1.RefinesSet s'.2 := by
  obtain ⟨t, past⟩ := s
  cases call with
  | insert x => exact absurd trivial hBad
  | find x => exact absurd trivial hBad
  | erase x =>
      simp only [EraseSparesSpilled, not_not] at hBad
      obtain ⟨⟨slot, d, hLt, hLive, hEq⟩, ⟨spilled, y, hGe, hLiveY, hHome⟩⟩ := hBad
      simp only [step, hc.erase_of_live hLive hEq, ↓reduceIte, Option.some.injEq] at hStep
      subst s'
      simp only
      intro hRefines
      have hNear : InArea (t.home y) slot := by
        rw [hHome, ← home_congr t hEq]
        exact hc.wf.home_eq slot d hLt hLive.1
      have hOther : (d == y) = false := by
        obtain ⟨d', hLive', hNe⟩ := hc.visible spilled y hGe hLiveY slot hNear
        rwa [Option.some.inj (hLive'.1.symm.trans hLive.1)] at hNe
      have hMember : member (.erased x :: past) y = true := by
        rw [member_erased, (hc.member_iff y).mpr ⟨spilled, y, hLiveY, BEq.rfl⟩,
          ← BEq.congr_left hEq, hOther]
        rfl
      have hFind := find_after_drop hc (removeElement_dropAt hLive) hGe hLiveY hNear
      have hAnswer := hRefines.find_iff y
      rw [hFind, hMember] at hAnswer
      cases hAnswer

/-- Along every run without a refused insertion, the table is the finite set
of its history in every state if and only if no erasure takes a key out of a
home bucket whose keys have spilled into the overflow area. -/
theorem refinesSet_iff_eraseSparesSpilled (iDesiredSize : Nat) (calls : List (Call α))
    (hRun : (run step (initial iDesiredSize) calls).isSome) :
    Always step (fun s => s.1.RefinesSet s.2) (initial iDesiredSize) calls ↔
      Guarded step EraseSparesSpilled (initial iDesiredSize) calls := by
  obtain ⟨finish, hFinish⟩ := Option.isSome_iff_exists.mp hRun
  exact always_iff_guarded (fun s => s.1.Consistent s.2) step_consistent
    (fun _ hc => hc.refinesSet) step_hides (initial_consistent iDesiredSize) hFinish

theorem refinesSet_iff_eraseSparesSpilled_insert_erase :
    Always step (fun s => s.1.RefinesSet s.2) (initial 10) [.insert 3, .insert 16004, .erase 3] ↔
      Guarded step EraseSparesSpilled (initial (α := Nat) 10)
        [.insert 3, .insert 16004, .erase 3] :=
  refinesSet_iff_eraseSparesSpilled 10 [.insert 3, .insert 16004, .erase 3] (by decide)

/-- Eight keys of one home bucket, then the erasure of the first one. -/
def spillThenErase : List (Call Nat) :=
  (List.range 8).map (fun i => .insert (16001 * i)) ++ [.erase 0]

/-- The eighth key is lost although it was never erased. -/
theorem spilled_key_lost :
    (run step (initial 10) spillThenErase).isSome ∧
      ¬Always step (fun s => s.1.RefinesSet s.2) (initial 10) spillThenErase := by
  have hLost : (run step (initial 10) spillThenErase).any
      (fun s => (s.1.find 112007).isNone && member s.2 112007) = true := by decide
  cases hRun : run step (initial 10) spillThenErase with
  | none =>
      rw [hRun] at hLost
      cases hLost
  | some finish =>
      refine ⟨rfl, fun hAlways => ?_⟩
      have hFind := (hAlways.finish hRun).find_iff 112007
      rw [hRun] at hLost
      simp_all

end CppPerf.HashTable.HashTableBucket
