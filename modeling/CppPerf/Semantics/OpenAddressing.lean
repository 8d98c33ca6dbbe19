import Mathlib.Data.List.Basic
import Mathlib.Tactic.Common

/-! Open addressing over any set of cells and any probe path. A key is found
because every cell before it on its path is non-empty, and because buried
cells count as non-empty, no operation can break that. -/
namespace OpenAddressing

inductive Cell (κ : Type*) where
  | empty
  | tomb
  | full (key : κ)

variable {κ ι : Type*}

/-- Overwrite one cell. -/
def write [DecidableEq ι] (cells : ι → Cell κ) (i : ι) (cell : Cell κ) : ι → Cell κ :=
  fun j => if j = i then cell else cells j

/-- The cell lies on the path behind non-empty cells only. -/
def Reaches (cells : ι → Cell κ) (path : List ι) (i : ι) : Prop :=
  ∃ front back, path = front ++ i :: back ∧ ∀ j ∈ front, cells j ≠ .empty

theorem Reaches.mem {cells : ι → Cell κ} {path : List ι} {i : ι}
    (h : Reaches cells path i) : i ∈ path := by
  obtain ⟨front, back, rfl, _⟩ := h
  simp

theorem Reaches.mono {cells cells' : ι → Cell κ} {path : List ι} {i : ι}
    (hKeep : ∀ j, cells j ≠ .empty → cells' j ≠ .empty) (h : Reaches cells path i) :
    Reaches cells' path i := by
  obtain ⟨front, back, hPath, hFront⟩ := h
  exact ⟨front, back, hPath, fun j hj => hKeep j (hFront j hj)⟩

/-- Writing what a cell holds already. -/
theorem write_eq_self [DecidableEq ι] {cells : ι → Cell κ} {i : ι} {cell : Cell κ}
    (h : cells i = cell) : write cells i cell = cells := by
  funext j
  rw [write]
  split_ifs with hj
  · rw [hj, h]
  · rfl

variable [BEq κ]

/-- Probe until the key or an empty cell; buried cells are passed over. -/
def lookup (cells : ι → Cell κ) (key : κ) : List ι → Option ι
  | [] => none
  | i :: path =>
      match cells i with
      | .empty => none
      | .full k => if k == key then some i else lookup cells key path
      | .tomb => lookup cells key path

/-- Where an insertion writes, and whether the key is new there. `prefer`
decides between the buried cell remembered so far and the next one. -/
def place (cells : ι → Cell κ) (prefer : ι → ι → ι) (key : κ) :
    Option ι → List ι → Option (ι × Bool)
  | _, [] => none
  | spare, i :: path =>
      match cells i with
      | .empty => some (spare.getD i, true)
      | .full k => if k == key then some (i, false) else place cells prefer key spare path
      | .tomb => place cells prefer key (some (spare.elim i fun j => prefer j i)) path

/-- An insertion that never writes to a buried cell: the key's own cell, or the
first empty one. -/
def settle (cells : ι → Cell κ) (key : κ) : List ι → Option (ι × Bool)
  | [] => none
  | i :: path =>
      match cells i with
      | .empty => some (i, true)
      | .full k => if k == key then some (i, false) else settle cells key path
      | .tomb => settle cells key path

/-- Every key is reached on its own path and is kept in one cell. -/
structure Invariant (path : κ → List ι) (cells : ι → Cell κ) : Prop where
  reach : ∀ i k, cells i = .full k → Reaches cells (path k) i
  unique : ∀ i j k k', cells i = .full k → cells j = .full k' → k == k' → i = j

/-- No cell holds the key. -/
def Absent (cells : ι → Cell κ) (key : κ) : Prop :=
  ∀ i k, cells i = .full k → (k == key) = false

theorem lookup_sound {cells : ι → Cell κ} {key : κ} {path : List ι} {i : ι}
    (h : lookup cells key path = some i) : ∃ k, cells i = .full k ∧ k == key := by
  induction path with
  | nil => cases h
  | cons j path ih =>
      cases hCell : cells j with
      | empty => simp [lookup, hCell] at h
      | tomb =>
          simp only [lookup, hCell] at h
          exact ih h
      | full k =>
          simp only [lookup, hCell] at h
          split_ifs at h with hMatch
          · obtain rfl := Option.some.inj h
            exact ⟨k, hCell, hMatch⟩
          · exact ih h

/-- A key on its path is found, provided no other cell holds it. -/
theorem lookup_complete {cells : ι → Cell κ} {key k : κ} {path : List ι} {i : ι}
    (hReach : Reaches cells path i) (hCell : cells i = .full k) (hKey : k == key)
    (hOnly : ∀ j k', cells j = .full k' → k' == key → j = i) :
    lookup cells key path = some i := by
  obtain ⟨front, back, rfl, hFront⟩ := hReach
  induction front with
  | nil => simp [lookup, hCell, hKey]
  | cons j front ih =>
      have hRest : lookup cells key (front ++ i :: back) = some i :=
        ih fun m hm => hFront m (by simp [hm])
      cases hj : cells j with
      | empty => exact absurd hj (hFront j (by simp))
      | tomb => simpa only [List.cons_append, lookup, hj] using hRest
      | full k' =>
          simp only [List.cons_append, lookup, hj]
          split_ifs with hMatch
          · rw [hOnly j k' hj hMatch]
          · exact hRest

/-- An insertion probes like a lookup: it reports the key as present exactly
where a lookup finds it. -/
theorem lookup_eq_place (cells : ι → Cell κ) (prefer : ι → ι → ι) (key : κ) (spare : Option ι)
    (path : List ι) :
    lookup cells key path =
      (place cells prefer key spare path).bind fun r => if r.2 then none else some r.1 := by
  induction path generalizing spare with
  | nil => rfl
  | cons j path ih =>
      cases hCell : cells j with
      | empty => simp [lookup, place, hCell]
      | tomb =>
          simp only [lookup, place, hCell]
          exact ih _
      | full k =>
          simp only [lookup, place, hCell]
          split_ifs with hMatch
          · rfl
          · exact ih spare

theorem lookup_eq_settle (cells : ι → Cell κ) (key : κ) (path : List ι) :
    lookup cells key path =
      (settle cells key path).bind fun r => if r.2 then none else some r.1 := by
  induction path with
  | nil => rfl
  | cons j path ih =>
      cases hCell : cells j with
      | empty => simp [lookup, settle, hCell]
      | tomb =>
          simp only [lookup, settle, hCell]
          exact ih
      | full k =>
          simp only [lookup, settle, hCell]
          split_ifs with hMatch
          · rfl
          · exact ih

theorem settle_new {cells : ι → Cell κ} {key : κ} {path : List ι} {i : ι}
    (h : settle cells key path = some (i, true)) :
    cells i = .empty ∧ Reaches cells path i := by
  have hPass : ∀ j rest, cells j ≠ .empty → Reaches cells rest i →
      Reaches cells (j :: rest) i := by
    rintro j rest hj ⟨front, back, rfl, hFront⟩
    exact ⟨j :: front, back, rfl, List.forall_mem_cons.mpr ⟨hj, hFront⟩⟩
  induction path with
  | nil => cases h
  | cons j path ih =>
      cases hCell : cells j with
      | empty =>
          simp only [settle, hCell, Option.some.injEq, Prod.mk.injEq, and_true] at h
          subst i
          exact ⟨hCell, [], path, rfl, by simp⟩
      | tomb =>
          simp only [settle, hCell] at h
          exact (ih h).imp_right (hPass j path (by simp [hCell]))
      | full k =>
          simp only [settle, hCell] at h
          split_ifs at h
          · cases h
          · exact (ih h).imp_right (hPass j path (by simp [hCell]))

/-- An insertion fails only where the key is not found and no cell on its path
is empty. -/
theorem settle_isSome_iff {cells : ι → Cell κ} {key : κ} {path : List ι} :
    (settle cells key path).isSome = true ↔
      (lookup cells key path).isSome = true ∨ ∃ i ∈ path, cells i = .empty := by
  induction path with
  | nil => simp [settle, lookup]
  | cons j path ih =>
      simp only [List.mem_cons, exists_eq_or_imp]
      cases hCell : cells j with
      | empty => simp [settle, lookup, hCell]
      | tomb => simpa only [settle, lookup, hCell, reduceCtorEq, false_or] using ih
      | full k =>
          simp only [settle, lookup, hCell, reduceCtorEq, false_or]
          split_ifs with hMatch
          · simp
          · exact ih

/-- A new key is written to a cell that holds none, behind non-empty cells.
`passed` is the part of the path already probed. -/
private theorem place_new_loop {cells : ι → Cell κ} {prefer : ι → ι → ι}
    (hPrefer : ∀ a b, prefer a b = a ∨ prefer a b = b) {key : κ} {spare : Option ι}
    {passed path : List ι} {i : ι} (hPassed : ∀ j ∈ passed, cells j ≠ .empty)
    (hSpare : ∀ m, spare = some m → cells m = .tomb ∧ Reaches cells (passed ++ path) m)
    (h : place cells prefer key spare path = some (i, true)) :
    (∀ k, cells i ≠ .full k) ∧ Reaches cells (passed ++ path) i := by
  induction path generalizing spare passed with
  | nil => cases h
  | cons j path ih =>
      have hHere : Reaches cells (passed ++ j :: path) j := ⟨passed, path, rfl, hPassed⟩
      have hShift : passed ++ j :: path = (passed ++ [j]) ++ path := by simp
      cases hCell : cells j with
      | empty =>
          simp only [place, hCell, Option.some.injEq, Prod.mk.injEq, and_true] at h
          subst i
          cases spare with
          | none => exact ⟨by simp [hCell], hHere⟩
          | some m => exact ⟨by simp [hSpare m rfl], (hSpare m rfl).2⟩
      | tomb =>
          simp only [place, hCell] at h
          rw [hShift] at hHere hSpare ⊢
          refine ih ?_ ?_ h
          · intro m hm
            rcases List.mem_append.mp hm with hm | hm
            · exact hPassed m hm
            · obtain rfl := List.mem_singleton.mp hm
              simp [hCell]
          · intro m hm
            obtain rfl := Option.some.inj hm
            cases spare with
            | none => exact ⟨hCell, hHere⟩
            | some n =>
                rcases hPrefer n j with hKeep | hTake
                · simpa only [Option.elim_some, hKeep] using hSpare n rfl
                · simpa only [Option.elim_some, hTake] using And.intro hCell hHere
      | full k =>
          simp only [place, hCell] at h
          split_ifs at h with hMatch
          · cases h
          · rw [hShift] at hSpare ⊢
            refine ih ?_ hSpare h
            intro m hm
            rcases List.mem_append.mp hm with hm | hm
            · exact hPassed m hm
            · obtain rfl := List.mem_singleton.mp hm
              simp [hCell]

theorem place_new {cells : ι → Cell κ} {prefer : ι → ι → ι}
    (hPrefer : ∀ a b, prefer a b = a ∨ prefer a b = b) {key : κ} {path : List ι} {i : ι}
    (h : place cells prefer key none path = some (i, true)) :
    (∀ k, cells i ≠ .full k) ∧ Reaches cells path i := by
  have hPassed : ∀ j ∈ ([] : List ι), cells j ≠ .empty := by simp
  exact place_new_loop hPrefer hPassed (by simp) h

namespace Invariant

variable {path : κ → List ι} {cells : ι → Cell κ}

/-- Lookups along the path of a key find it exactly where it is kept. -/
theorem lookup_iff (hInv : Invariant path cells) (hPath : ∀ k k', k == k' → path k = path k')
    [EquivBEq κ] (key : κ) (i : ι) :
    lookup cells key (path key) = some i ↔ ∃ k, cells i = .full k ∧ k == key := by
  refine ⟨lookup_sound, ?_⟩
  rintro ⟨k, hCell, hKey⟩
  have hReach := hInv.reach i k hCell
  rw [hPath k key hKey] at hReach
  refine lookup_complete hReach hCell hKey ?_
  intro j k' hj hMatch
  exact hInv.unique j i k' k hj hCell (BEq.trans hMatch (BEq.symm hKey))

theorem absent_iff (hInv : Invariant path cells) (hPath : ∀ k k', k == k' → path k = path k')
    [EquivBEq κ] (key : κ) : lookup cells key (path key) = none ↔ Absent cells key := by
  constructor
  · intro h i k hCell
    by_contra hMatch
    have hFound := (hInv.lookup_iff hPath key i).mpr ⟨k, hCell, by simpa using hMatch⟩
    rw [h] at hFound
    cases hFound
  · intro hAbsent
    cases hLookup : lookup cells key (path key) with
    | none => rfl
    | some i =>
        obtain ⟨k, hCell, hKey⟩ := lookup_sound hLookup
        rw [hAbsent i k hCell] at hKey
        cases hKey

theorem lookup_eq_some_iff (hInv : Invariant path cells) [LawfulBEq κ] (k : κ) (j : ι) :
    lookup cells k (path k) = some j ↔ cells j = .full k := by
  have hPath : ∀ k k' : κ, k == k' → path k = path k' := fun k k' h => by rw [eq_of_beq h]
  rw [hInv.lookup_iff hPath]
  constructor
  · rintro ⟨k', hCell, hKey⟩
    rwa [eq_of_beq hKey] at hCell
  · intro hCell
    exact ⟨k, hCell, beq_self_eq_true k⟩

variable [DecidableEq ι]

/-- Writing a key that no other cell holds, where its path reaches. -/
theorem write_full (hInv : Invariant path cells) [EquivBEq κ] {key : κ} {i : ι}
    (hReach : Reaches cells (path key) i)
    (hOnly : ∀ j k, j ≠ i → cells j = .full k → (k == key) = false) :
    Invariant path (write cells i (.full key)) := by
  have hKeep : ∀ j, cells j ≠ .empty → write cells i (.full key) j ≠ .empty := by
    intro j hj
    unfold write
    split_ifs <;> simp [hj]
  have hCases : ∀ j k, write cells i (.full key) j = .full k →
      (j = i ∧ k = key) ∨ (j ≠ i ∧ cells j = .full k) := by
    intro j k hCell
    unfold write at hCell
    split_ifs at hCell with hj
    · exact Or.inl ⟨hj, (Cell.full.inj hCell).symm⟩
    · exact Or.inr ⟨hj, hCell⟩
  constructor
  · intro j k hCell
    rcases hCases j k hCell with ⟨rfl, rfl⟩ | ⟨_, hOld⟩
    · exact hReach.mono hKeep
    · exact (hInv.reach j k hOld).mono hKeep
  · intro j₁ j₂ k₁ k₂ hCell₁ hCell₂ hEq
    rcases hCases j₁ k₁ hCell₁ with ⟨rfl, rfl⟩ | ⟨hne₁, hOld₁⟩ <;>
      rcases hCases j₂ k₂ hCell₂ with ⟨rfl, rfl⟩ | ⟨hne₂, hOld₂⟩
    · rfl
    · simpa [BEq.symm hEq] using hOnly j₂ k₂ hne₂ hOld₂
    · simpa [hEq] using hOnly j₁ k₁ hne₁ hOld₁
    · exact hInv.unique j₁ j₂ k₁ k₂ hOld₁ hOld₂ hEq

/-- Burying a cell. A buried cell still counts as non-empty. -/
theorem write_tomb (hInv : Invariant path cells) (i : ι) :
    Invariant path (write cells i .tomb) := by
  have hKeep : ∀ j, cells j ≠ .empty → write cells i .tomb j ≠ .empty := by
    intro j hj
    unfold write
    split_ifs <;> simp [hj]
  have hOld : ∀ j k, write cells i .tomb j = .full k → cells j = .full k := by
    intro j k hCell
    unfold write at hCell
    split_ifs at hCell with hj
    exact hCell
  constructor
  · intro j k hCell
    exact (hInv.reach j k (hOld j k hCell)).mono hKeep
  · intro j₁ j₂ k₁ k₂ hCell₁ hCell₂
    exact hInv.unique j₁ j₂ k₁ k₂ (hOld j₁ k₁ hCell₁) (hOld j₂ k₂ hCell₂)

section Lawful

variable [LawfulBEq κ] {key : κ} {i : ι}

/-- A new key is written to an empty cell on its path. -/
theorem insert (hInv : Invariant path cells) (hNone : lookup cells key (path key) = none)
    (hReach : Reaches cells (path key) i) : Invariant path (write cells i (.full key)) := by
  refine hInv.write_full hReach fun j k _ hCell => ?_
  refine beq_false_of_ne fun hSame => ?_
  subst k
  rw [(hInv.lookup_eq_some_iff key j).mpr hCell] at hNone
  cases hNone

variable [DecidableEq κ]

theorem lookup_insert (hInv : Invariant path cells)
    (hNone : lookup cells key (path key) = none) (hEmpty : cells i = .empty)
    (hReach : Reaches cells (path key) i) (k : κ) :
    lookup (write cells i (.full key)) k (path k) =
      if k = key then some i else lookup cells k (path k) := by
  have hNew := hInv.insert hNone hReach
  ext j
  rw [hNew.lookup_eq_some_iff, write]
  by_cases hKey : k = key
  · subst k
    rw [if_pos rfl, Option.some.injEq]
    split_ifs with hj
    · simp [hj]
    · refine iff_of_false (fun hCell => ?_) (Ne.symm hj)
      rw [(hInv.lookup_eq_some_iff key j).mpr hCell] at hNone
      cases hNone
  · rw [if_neg hKey, hInv.lookup_eq_some_iff]
    split_ifs with hj
    · rw [hj, hEmpty]
      simp [Ne.symm hKey]
    · rfl

theorem lookup_write_tomb (hInv : Invariant path cells) (hCell : cells i = .full key) (k : κ) :
    lookup (write cells i .tomb) k (path k) =
      if k = key then none else lookup cells k (path k) := by
  have hNew := hInv.write_tomb i
  ext j
  rw [hNew.lookup_eq_some_iff, write]
  by_cases hKey : k = key
  · subst k
    rw [if_pos rfl]
    split_ifs with hj
    · simp
    · refine iff_of_false (fun hOther => hj ?_) (by simp)
      exact hInv.unique j i key key hOther hCell (beq_self_eq_true key)
  · rw [if_neg hKey, hInv.lookup_eq_some_iff]
    split_ifs with hj
    · rw [hj, hCell]
      simp [Ne.symm hKey]
    · rfl

end Lawful

end Invariant

theorem lookup_of_empty {cells : ι → Cell κ} (h : ∀ i, cells i = .empty) (key : κ)
    (path : List ι) : lookup cells key path = none := by
  cases path with
  | nil => rfl
  | cons i path => rw [lookup, h i]

/-- A table without keys. -/
theorem invariant_of_empty {path : κ → List ι} {cells : ι → Cell κ}
    (h : ∀ i, cells i = .empty) : Invariant path cells where
  reach i k hCell := by simp [h i] at hCell
  unique i j k k' hCell := by simp [h i] at hCell

end OpenAddressing
