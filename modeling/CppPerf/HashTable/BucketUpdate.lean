import CppPerf.HashTable.Bucket

/-! The two ways a call changes the slots of the bucket table: `insert` writes
the slot its lookup ended in, and `erase` flags a live slot. -/
namespace CppPerf.HashTable.HashTableBucket

open Indexed

variable {α : Type*} [Hashable α]

/-- `t'` is `t` with `x` written, live, into slot `s`. -/
structure PutAt (t : HashTableBucket α) (x : α) (s : Nat) (t' : HashTableBucket α) : Prop where
  buckets_eq : t'.buckets = t.buckets
  overflow_eq : t'.overflow = t.overflow
  elements_eq : t'.pElements = t.pElements.set s ⟨(hash x).toUInt32, some x, false⟩
  entries_eq : t'.iEntries = t.iEntries + if (t.pElements.get s).live then 0 else 1

namespace PutAt

variable {t t' : HashTableBucket α} {x : α} {s : Nat}

theorem home_eq (hPut : t.PutAt x s t') (y : α) : t'.home y = t.home y := by
  simp [home, hPut.buckets_eq]

theorem data_self (hPut : t.PutAt x s t') : (t'.pElements.get s).pData = some x := by
  simp [hPut.elements_eq]

theorem get_of_ne (hPut : t.PutAt x s t') {s' : Nat} (hne : s' ≠ s) :
    t'.pElements.get s' = t.pElements.get s' := by
  simp [hPut.elements_eq, Vec.get_set_of_ne _ _ hne]

theorem live_self (hPut : t.PutAt x s t') : t'.Live s x := by
  simp [Live, hPut.elements_eq]

theorem live_of_ne (hPut : t.PutAt x s t') {s' : Nat} (hne : s' ≠ s) (d : α) :
    t'.Live s' d ↔ t.Live s' d := by
  simp [Live, hPut.get_of_ne hne]

/-- Live slots after the write: the written one, and the others as before. -/
theorem live_cases (hPut : t.PutAt x s t') {s' : Nat} {d : α} (h : t'.Live s' d) :
    (s' = s ∧ d = x) ∨ (s' ≠ s ∧ t.Live s' d) := by
  by_cases hs : s' = s
  · subst s'
    have hData := h.1
    rw [hPut.data_self] at hData
    exact Or.inl ⟨rfl, (Option.some.inj hData).symm⟩
  · exact Or.inr ⟨hs, (hPut.live_of_ne hs d).mp h⟩

variable [BEq α] [EquivBEq α]

/-- Writing a key where a lookup of it ended keeps the shape of the table. -/
theorem wellFormed (hPut : t.PutAt x s t') (hw : t.WellFormed) {base : Nat}
    (hBase : base % bucketSize = 0) (hLe : base ≤ t.overflow)
    (hArea : s < t.overflow → base = t.home x) (hPick : t.Pick x base s) :
    t'.WellFormed where
  buckets_pos := by rw [hPut.buckets_eq]; exact hw.buckets_pos
  buckets_le := by rw [hPut.buckets_eq]; exact hw.buckets_le
  overflow_eq := by rw [hPut.overflow_eq, hPut.buckets_eq]; exact hw.overflow_eq
  size_eq := by rw [hPut.elements_eq, hPut.overflow_eq]; exact hw.size_eq
  hash_eq := by
    intro s' d hData
    by_cases hs : s' = s
    · subst s'
      rw [hPut.data_self] at hData
      obtain rfl := Option.some.inj hData
      simp [hPut.elements_eq]
    · rw [hPut.get_of_ne hs] at hData ⊢
      exact hw.hash_eq s' d hData
  home_eq := by
    intro s' d hLt hData
    rw [hPut.overflow_eq] at hLt
    rw [hPut.home_eq]
    by_cases hs : s' = s
    · subst s'
      rw [hPut.data_self] at hData
      obtain rfl := Option.some.inj hData
      rw [← hArea hLt]
      exact hPick.inArea
    · rw [hPut.get_of_ne hs] at hData
      exact hw.home_eq s' d hLt hData
  beyond := by
    intro s' hGe
    rw [hPut.overflow_eq] at hGe
    have hs : s' ≠ s := by
      have := hPick.inArea.2
      omega
    rw [hPut.get_of_ne hs]
    exact hw.beyond s' hGe
  packed := by
    intro s₁ s₂ hDiv hLt hNone
    have hs₂ : s₂ ≠ s := by
      rintro rfl
      rw [hPut.data_self] at hNone
      cases hNone
    rw [hPut.get_of_ne hs₂] at hNone
    by_cases hs₁ : s₁ = s
    · -- A slot before the written one was occupied when the lookup passed it.
      subst s₁
      have hIn := inArea_of_div_eq hBase hPick.inArea hDiv.symm
      exact absurd hNone (hPick.before s₂ hIn.1 hLt)
    · rw [hPut.get_of_ne hs₁]
      exact hw.packed s₁ s₂ hDiv hLt hNone
  distinct := by
    have hOther : ∀ s' d, s / bucketSize = s' / bucketSize → s' ≠ s →
        (t.pElements.get s').pData = some d → (d == x) = false := by
      intro s' d hDiv hne hData
      exact hPick.others s' d (inArea_of_div_eq hBase hPick.inArea hDiv) hne hData
    intro s₁ s₂ d₁ d₂ hDiv hData₁ hData₂ hEq
    by_cases hs₁ : s₁ = s <;> by_cases hs₂ : s₂ = s
    · exact hs₁.trans hs₂.symm
    · subst s₁
      rw [hPut.data_self] at hData₁
      obtain rfl := Option.some.inj hData₁
      rw [hPut.get_of_ne hs₂] at hData₂
      have hNe := hOther s₂ d₂ hDiv hs₂ hData₂
      rw [BEq.comm, hEq] at hNe
      cases hNe
    · subst s₂
      rw [hPut.data_self] at hData₂
      obtain rfl := Option.some.inj hData₂
      rw [hPut.get_of_ne hs₁] at hData₁
      have hNe := hOther s₁ d₁ hDiv.symm hs₁ hData₁
      rw [hEq] at hNe
      cases hNe
    · rw [hPut.get_of_ne hs₁] at hData₁
      rw [hPut.get_of_ne hs₂] at hData₂
      exact hw.distinct s₁ s₂ d₁ d₂ hDiv hData₁ hData₂ hEq

end PutAt

/-- `t'` is `t` with the slot `s` flagged as erased. -/
structure DropAt (t : HashTableBucket α) (s : Nat) (t' : HashTableBucket α) : Prop where
  buckets_eq : t'.buckets = t.buckets
  overflow_eq : t'.overflow = t.overflow
  elements_eq : t'.pElements = t.pElements.set s { t.pElements.get s with bErased := true }
  entries_eq : t'.iEntries = t.iEntries - 1

omit [Hashable α] in
theorem removeElement_dropAt {t : HashTableBucket α} {s : Nat} {d : α} (hLive : t.Live s d) :
    t.DropAt s (t.removeElement s) := by
  constructor <;> simp [removeElement, hLive.2]

namespace DropAt

variable {t t' : HashTableBucket α} {s : Nat}

theorem home_eq (hDrop : t.DropAt s t') (y : α) : t'.home y = t.home y := by
  simp [home, hDrop.buckets_eq]

omit [Hashable α] in
/-- Flagging a slot moves no data. -/
theorem data_eq (hDrop : t.DropAt s t') (s' : Nat) :
    (t'.pElements.get s').pData = (t.pElements.get s').pData := by
  rw [hDrop.elements_eq, Vec.get_set]
  split_ifs with hs
  · rw [hs]
  · rfl

omit [Hashable α] in
theorem hash_eq (hDrop : t.DropAt s t') (s' : Nat) :
    (t'.pElements.get s').hash = (t.pElements.get s').hash := by
  rw [hDrop.elements_eq, Vec.get_set]
  split_ifs with hs
  · rw [hs]
  · rfl

omit [Hashable α] in
theorem not_live_self (hDrop : t.DropAt s t') (d : α) : ¬t'.Live s d := by
  simp [Live, hDrop.elements_eq]

omit [Hashable α] in
theorem live_iff (hDrop : t.DropAt s t') (s' : Nat) (d : α) :
    t'.Live s' d ↔ t.Live s' d ∧ s' ≠ s := by
  by_cases hs : s' = s
  · subst s'
    simp [hDrop.not_live_self]
  · simp [Live, hDrop.elements_eq, Vec.get_set_of_ne _ _ hs, hs]

theorem wellFormed [BEq α] (hDrop : t.DropAt s t') (hw : t.WellFormed) : t'.WellFormed where
  buckets_pos := by rw [hDrop.buckets_eq]; exact hw.buckets_pos
  buckets_le := by rw [hDrop.buckets_eq]; exact hw.buckets_le
  overflow_eq := by rw [hDrop.overflow_eq, hDrop.buckets_eq]; exact hw.overflow_eq
  size_eq := by rw [hDrop.elements_eq, hDrop.overflow_eq]; exact hw.size_eq
  hash_eq := by
    intro s' d hData
    rw [hDrop.data_eq] at hData
    rw [hDrop.hash_eq]
    exact hw.hash_eq s' d hData
  home_eq := by
    intro s' d hLt hData
    rw [hDrop.overflow_eq] at hLt
    rw [hDrop.data_eq] at hData
    rw [hDrop.home_eq]
    exact hw.home_eq s' d hLt hData
  beyond := by
    intro s' hGe
    rw [hDrop.overflow_eq] at hGe
    rw [hDrop.data_eq]
    exact hw.beyond s' hGe
  packed := by
    intro s₁ s₂ hDiv hLt hNone
    rw [hDrop.data_eq] at hNone ⊢
    exact hw.packed s₁ s₂ hDiv hLt hNone
  distinct := by
    intro s₁ s₂ d₁ d₂ hDiv hData₁ hData₂ hEq
    rw [hDrop.data_eq] at hData₁ hData₂
    exact hw.distinct s₁ s₂ d₁ d₂ hDiv hData₁ hData₂ hEq

end DropAt

variable [BEq α]

theorem insert_of_locate_none {t : HashTableBucket α} {x : α} (h : t.locate x = none) :
    t.insert x = (t, none, false) := by
  simp [insert, h]

theorem insert_of_locate_some {t : HashTableBucket α} {x : α} {s : Nat}
    (h : t.locate x = some s) : (t.insert x).2.1 = some s ∧ t.PutAt x s (t.insert x).1 := by
  cases hData : (t.pElements.get s).pData with
  | none =>
      simp only [insert, h, hData]
      exact ⟨trivial, rfl, rfl, rfl, by simp [BucketElement.live, hData]⟩
  | some d =>
      simp only [insert, h, hData]
      refine ⟨trivial, rfl, rfl, rfl, ?_⟩
      cases hErased : (t.pElements.get s).bErased <;> simp [BucketElement.live, hData, hErased]

end CppPerf.HashTable.HashTableBucket
