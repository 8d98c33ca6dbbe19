import Mathlib.Data.List.Induction
import Mathlib.Data.List.Nodup
import Mathlib.Data.List.Perm.Basic
import Mathlib.Order.Lattice
import Mathlib.Tactic.Common

/-! Maps with their keys in increasing order. The entries are a list that is
sorted by a field of the structure, so that the first entry is the one with the
least key. A reversed order gives a map that starts with its greatest key. -/
namespace Ordered

structure OrderedMap (K V : Type*) [LinearOrder K] where
  entries : List (K × V)
  sorted : entries.Pairwise fun e e' => e.1 < e'.1

namespace OrderedMap

variable {K V : Type*} [LinearOrder K]

def empty : OrderedMap K V := ⟨[], List.Pairwise.nil⟩

def lookup (m : OrderedMap K V) (k : K) : Option V :=
  (m.entries.find? fun e => e.1 = k).map Prod.snd

/-- Insert an entry, or give an existing one a new value. -/
def insertEntry (k : K) (v : V) : List (K × V) → List (K × V)
  | [] => [(k, v)]
  | e :: rest =>
      if k < e.1 then (k, v) :: e :: rest
      else if e.1 < k then e :: insertEntry k v rest
      else (k, v) :: rest

theorem mem_insertEntry {k : K} {v : V} {l : List (K × V)}
    (hSorted : l.Pairwise fun e e' => e.1 < e'.1) (x : K × V) :
    x ∈ insertEntry k v l ↔ x = (k, v) ∨ x ∈ l ∧ x.1 ≠ k := by
  induction l with
  | nil => simp [insertEntry]
  | cons e rest ih =>
      obtain ⟨hFirst, hRest⟩ := List.pairwise_cons.mp hSorted
      rw [insertEntry]
      split_ifs with hBefore hAfter
      · -- The new key is below all others.
        have hAbove : ∀ y ∈ e :: rest, y.1 ≠ k := by
          intro y hy
          rcases List.mem_cons.mp hy with rfl | hIn
          · exact hBefore.ne'
          · exact (hBefore.trans (hFirst y hIn)).ne'
        rw [List.mem_cons]
        constructor
        · rintro (hNew | hOld)
          · exact Or.inl hNew
          · exact Or.inr ⟨hOld, hAbove x hOld⟩
        · rintro (hNew | ⟨hOld, _⟩)
          · exact Or.inl hNew
          · exact Or.inr hOld
      · rw [List.mem_cons, ih hRest, List.mem_cons]
        constructor
        · rintro (rfl | hNew | ⟨hOld, hOther⟩)
          · exact Or.inr ⟨Or.inl rfl, hAfter.ne⟩
          · exact Or.inl hNew
          · exact Or.inr ⟨Or.inr hOld, hOther⟩
        · rintro (hNew | ⟨rfl | hOld, hOther⟩)
          · exact Or.inr (Or.inl hNew)
          · exact Or.inl rfl
          · exact Or.inr (Or.inr ⟨hOld, hOther⟩)
      · have hSame : e.1 = k := le_antisymm (not_lt.mp hBefore) (not_lt.mp hAfter)
        rw [List.mem_cons, List.mem_cons]
        constructor
        · rintro (hNew | hOld)
          · exact Or.inl hNew
          · exact Or.inr ⟨Or.inr hOld, hSame ▸ (hFirst x hOld).ne'⟩
        · rintro (hNew | ⟨rfl | hOld, hOther⟩)
          · exact Or.inl hNew
          · exact absurd hSame hOther
          · exact Or.inr hOld

theorem sorted_insertEntry (k : K) (v : V) {l : List (K × V)}
    (hSorted : l.Pairwise fun e e' => e.1 < e'.1) :
    (insertEntry k v l).Pairwise fun e e' => e.1 < e'.1 := by
  induction l with
  | nil => exact List.pairwise_singleton _ _
  | cons e rest ih =>
      obtain ⟨hFirst, hRest⟩ := List.pairwise_cons.mp hSorted
      rw [insertEntry]
      split_ifs with hBefore hAfter
      · refine List.pairwise_cons.mpr ⟨?_, hSorted⟩
        intro y hy
        rcases List.mem_cons.mp hy with rfl | hIn
        · exact hBefore
        · exact hBefore.trans (hFirst y hIn)
      · refine List.pairwise_cons.mpr ⟨?_, ih hRest⟩
        intro y hy
        rcases (mem_insertEntry hRest y).mp hy with rfl | ⟨hIn, _⟩
        · exact hAfter
        · exact hFirst y hIn
      · have hSame : e.1 = k := le_antisymm (not_lt.mp hBefore) (not_lt.mp hAfter)
        exact List.pairwise_cons.mpr ⟨hSame ▸ hFirst, hRest⟩

def set (m : OrderedMap K V) (k : K) (v : V) : OrderedMap K V :=
  ⟨insertEntry k v m.entries, sorted_insertEntry k v m.sorted⟩

def erase (m : OrderedMap K V) (k : K) : OrderedMap K V :=
  ⟨m.entries.filter fun e => e.1 ≠ k, m.sorted.filter _⟩

/-- The entry with the least key. -/
def first (m : OrderedMap K V) : Option (K × V) := m.entries.head?

/-- The entry with the least key that is not below the given one. -/
def lowerBound (m : OrderedMap K V) (k : K) : Option (K × V) :=
  m.entries.find? fun e => k ≤ e.1

/-- The entry with the least key above the given one. -/
def upperBound (m : OrderedMap K V) (k : K) : Option (K × V) :=
  m.entries.find? fun e => k < e.1

variable (m : OrderedMap K V) {k : K} {v : V}

theorem nodup_entries : m.entries.Nodup := m.sorted.imp fun h hEq => h.ne (congrArg Prod.fst hEq)

@[simp] theorem mem_set (x : K × V) :
    x ∈ (m.set k v).entries ↔ x = (k, v) ∨ x ∈ m.entries ∧ x.1 ≠ k :=
  mem_insertEntry m.sorted x

@[simp] theorem mem_erase (x : K × V) : x ∈ (m.erase k).entries ↔ x ∈ m.entries ∧ x.1 ≠ k := by
  simp [erase]

/-- A key has one value. -/
theorem eq_of_mem {x y : K × V} (hx : x ∈ m.entries) (hy : y ∈ m.entries) (hKey : x.1 = y.1) :
    x = y := by
  have hApart : (m.entries.map Prod.fst).Nodup := List.pairwise_map.mpr (m.sorted.imp fun h => h.ne)
  exact List.inj_on_of_nodup_map hApart hx hy hKey

theorem lookup_eq_some_iff : m.lookup k = some v ↔ (k, v) ∈ m.entries := by
  rw [lookup, Option.map_eq_some_iff]
  constructor
  · rintro ⟨e, hFind, rfl⟩
    obtain rfl : e.1 = k := by simpa using List.find?_some hFind
    exact List.mem_of_find?_eq_some hFind
  · intro hMem
    cases hFind : m.entries.find? fun e => e.1 = k with
    | none => simpa using List.find?_eq_none.mp hFind (k, v) hMem
    | some e =>
        have hKey : e.1 = k := by simpa using List.find?_some hFind
        have hSame := m.eq_of_mem (List.mem_of_find?_eq_some hFind) hMem hKey
        exact ⟨e, rfl, congrArg Prod.snd hSame⟩

theorem lookup_eq_none_iff : m.lookup k = none ↔ ∀ v, (k, v) ∉ m.entries := by
  rw [Option.eq_none_iff_forall_ne_some]
  exact forall_congr' fun v => not_congr m.lookup_eq_some_iff

@[simp] theorem lookup_set_self (k : K) (v : V) : (m.set k v).lookup k = some v := by
  rw [lookup_eq_some_iff, mem_set]
  exact Or.inl rfl

theorem lookup_set_of_ne {k' : K} (v : V) (h : k' ≠ k) : (m.set k v).lookup k' = m.lookup k' := by
  ext w
  simp only [lookup_eq_some_iff, mem_set, Prod.mk.injEq]
  tauto

@[simp] theorem lookup_erase_self (k : K) : (m.erase k).lookup k = none := by
  simp [lookup_eq_none_iff]

theorem lookup_erase_of_ne {k' : K} (h : k' ≠ k) : (m.erase k).lookup k' = m.lookup k' := by
  ext w
  simp only [lookup_eq_some_iff, mem_erase]
  tauto

/-- The other entries and the one that is set. -/
theorem perm_set (k : K) (v : V) : (m.set k v).entries.Perm ((k, v) :: (m.erase k).entries) := by
  rw [List.perm_ext_iff_of_nodup (m.set k v).nodup_entries]
  · intro x
    rw [mem_set, List.mem_cons, mem_erase]
  · refine List.nodup_cons.mpr ⟨?_, (m.erase k).nodup_entries⟩
    simp

theorem perm_of_lookup (h : m.lookup k = some v) :
    m.entries.Perm ((k, v) :: (m.erase k).entries) := by
  have hMem := m.lookup_eq_some_iff.mp h
  rw [List.perm_ext_iff_of_nodup m.nodup_entries]
  · intro x
    rw [List.mem_cons, mem_erase]
    constructor
    · intro hx
      by_cases hKey : x.1 = k
      · exact Or.inl (m.eq_of_mem hx hMem hKey)
      · exact Or.inr ⟨hx, hKey⟩
    · rintro (rfl | ⟨hx, _⟩)
      · exact hMem
      · exact hx
  · refine List.nodup_cons.mpr ⟨?_, (m.erase k).nodup_entries⟩
    simp

theorem erase_of_lookup_eq_none (h : m.lookup k = none) : (m.erase k).entries = m.entries := by
  rw [erase, List.filter_eq_self]
  intro e he
  have hOther : e.1 ≠ k := by
    rintro rfl
    exact m.lookup_eq_none_iff.mp h e.2 he
  simpa using hOther

/-- A new entry can be taken back. -/
theorem erase_set_of_none (v : V) (h : m.lookup k = none) : (m.set k v).erase k = m := by
  have hEntries : ((m.set k v).erase k).entries = m.entries := by
    refine List.Perm.eq_of_pairwise (fun a b _ _ hab hba => absurd hab hba.not_gt)
      ((m.set k v).erase k).sorted m.sorted ?_
    refine (List.perm_ext_iff_of_nodup (nodup_entries _) (nodup_entries m)).mpr fun x => ?_
    rw [mem_erase, mem_set]
    constructor
    · rintro ⟨rfl | ⟨hMem, -⟩, hNe⟩
      · exact absurd rfl hNe
      · exact hMem
    · intro hMem
      have hNe : x.1 ≠ k := by
        rintro rfl
        exact (lookup_eq_none_iff m).mp h x.2 hMem
      exact ⟨Or.inr ⟨hMem, hNe⟩, hNe⟩
  rcases hErased : (m.set k v).erase k with ⟨entries, hSorted⟩
  rw [hErased] at hEntries
  cases m
  subst hEntries
  rfl

theorem first_eq_none_iff : m.first = none ↔ ∀ e, e ∉ m.entries := by
  rw [first, List.head?_eq_none_iff, List.eq_nil_iff_forall_not_mem]

/-- The first entry has the least key. -/
theorem first_eq_some {e : K × V} (h : m.first = some e) :
    e ∈ m.entries ∧ ∀ e' ∈ m.entries, e' = e ∨ e.1 < e'.1 := by
  obtain ⟨rest, hEntries⟩ := List.head?_eq_some_iff.mp h
  have hSorted := m.sorted
  rw [hEntries] at hSorted ⊢
  refine ⟨List.mem_cons_self, fun e' he' => ?_⟩
  rcases List.mem_cons.mp he' with hSame | hRest
  · exact Or.inl hSame
  · exact Or.inr ((List.pairwise_cons.mp hSorted).1 e' hRest)

theorem lowerBound_eq_none (h : m.lowerBound k = none) : ∀ e ∈ m.entries, e.1 < k := by
  intro e he
  simpa using List.find?_eq_none.mp h e he

/-- All entries before the lower bound are below the key. -/
theorem lowerBound_eq_some {e : K × V} (h : m.lowerBound k = some e) :
    e ∈ m.entries ∧ k ≤ e.1 ∧ ∀ e' ∈ m.entries, k ≤ e'.1 → e' = e ∨ e.1 < e'.1 := by
  obtain ⟨hLe, before, after, hEntries, hBefore⟩ := List.find?_eq_some_iff_append.mp h
  have hSorted := m.sorted
  rw [hEntries] at hSorted ⊢
  refine ⟨by simp, by simpa using hLe, fun e' he' hk => ?_⟩
  rcases List.mem_append.mp he' with hOld | hRest
  · exact absurd hk (by simpa using hBefore e' hOld)
  · rcases List.mem_cons.mp hRest with hSame | hAfter
    · exact Or.inl hSame
    · have hTail := (List.pairwise_append.mp hSorted).2.1
      exact Or.inr ((List.pairwise_cons.mp hTail).1 e' hAfter)

theorem upperBound_eq_none (h : m.upperBound k = none) : ∀ e ∈ m.entries, e.1 ≤ k := by
  intro e he
  simpa using List.find?_eq_none.mp h e he

theorem upperBound_eq_some {e : K × V} (h : m.upperBound k = some e) :
    e ∈ m.entries ∧ k < e.1 ∧ ∀ e' ∈ m.entries, k < e'.1 → e.1 ≤ e'.1 := by
  obtain ⟨hLt, before, after, hEntries, hBefore⟩ := List.find?_eq_some_iff_append.mp h
  have hSorted := m.sorted
  rw [hEntries] at hSorted ⊢
  refine ⟨by simp, by simpa using hLt, fun e' he' hk => ?_⟩
  rcases List.mem_append.mp he' with hOld | hRest
  · exact absurd hk (by simpa using hBefore e' hOld)
  · rcases List.mem_cons.mp hRest with hSame | hAfter
    · rw [hSame]
    · have hTail := (List.pairwise_append.mp hSorted).2.1
      exact ((List.pairwise_cons.mp hTail).1 e' hAfter).le

theorem length_set_of_none (v : V) (h : m.lookup k = none) :
    (m.set k v).entries.length = m.entries.length + 1 := by
  rw [(m.perm_set k v).length_eq, List.length_cons, m.erase_of_lookup_eq_none h]

theorem length_set_of_some {v' : V} (v : V) (h : m.lookup k = some v') :
    (m.set k v).entries.length = m.entries.length := by
  rw [(m.perm_set k v).length_eq, (m.perm_of_lookup h).length_eq, List.length_cons,
    List.length_cons]

/-- A map filled with the entries of a list, one after the other. -/
def ofList (l : List (K × V)) : OrderedMap K V := l.foldl (fun m e => m.set e.1 e.2) empty

theorem ofList_append_singleton (l : List (K × V)) (e : K × V) :
    ofList (l ++ [e]) = (ofList l).set e.1 e.2 := by
  rw [ofList, List.foldl_append]
  rfl

/-- Entries with different keys are all kept. -/
theorem perm_ofList {l : List (K × V)} (h : (l.map Prod.fst).Nodup) :
    (ofList l).entries.Perm l := by
  induction l using List.reverseRecOn with
  | nil => exact List.Perm.refl []
  | append_singleton l e ih =>
      rw [List.map_append, List.map_singleton, List.nodup_append] at h
      obtain ⟨hFirst, _, hApart⟩ := h
      have hPerm := ih hFirst
      have hNone : (ofList l).lookup e.1 = none := by
        rw [lookup_eq_none_iff]
        intro v hMem
        have hKey : e.1 ∈ l.map Prod.fst := List.mem_map.mpr ⟨_, hPerm.mem_iff.mp hMem, rfl⟩
        exact hApart _ hKey _ (by simp) rfl
      rw [ofList_append_singleton]
      have hSet := (ofList l).perm_set e.1 e.2
      rw [erase_of_lookup_eq_none _ hNone] at hSet
      exact hSet.trans ((hPerm.cons e).trans (List.perm_append_singleton e l).symm)

theorem length_ofList_le (l : List (K × V)) : (ofList l).entries.length ≤ l.length := by
  induction l using List.reverseRecOn with
  | nil => exact Nat.le_refl 0
  | append_singleton l e ih =>
      rw [ofList_append_singleton, List.length_append, List.length_singleton]
      cases hLookup : (ofList l).lookup e.1 with
      | none =>
          rw [length_set_of_none _ _ hLookup]
          omega
      | some v =>
          rw [length_set_of_some _ _ hLookup]
          omega

/-- No entry is lost exactly if no key comes twice. -/
theorem length_ofList_eq_iff (l : List (K × V)) :
    (ofList l).entries.length = l.length ↔ (l.map Prod.fst).Nodup := by
  constructor
  · intro h
    induction l using List.reverseRecOn with
    | nil => exact List.nodup_nil
    | append_singleton l e ih =>
        have hLe := length_ofList_le l
        rw [ofList_append_singleton, List.length_append, List.length_singleton] at h
        cases hLookup : (ofList l).lookup e.1 with
        | some v =>
            rw [length_set_of_some _ _ hLookup] at h
            omega
        | none =>
            rw [length_set_of_none _ _ hLookup] at h
            have hFirst := ih (by omega)
            rw [List.map_append, List.map_singleton, List.nodup_append]
            refine ⟨hFirst, by simp, ?_⟩
            intro k hk k' hk' hSame
            obtain rfl := List.mem_singleton.mp hk'
            obtain ⟨x, hx, hKey⟩ := List.mem_map.mp hk
            have hMem : (e.1, x.2) ∈ (ofList l).entries := by
              rw [(perm_ofList hFirst).mem_iff, ← hSame, ← hKey]
              exact hx
            exact (lookup_eq_none_iff _).mp hLookup x.2 hMem
  · intro h
    exact (perm_ofList h).length_eq

/-- Every value is changed. -/
def mapValues (f : V → V) (m : OrderedMap K V) : OrderedMap K V :=
  ⟨m.entries.map fun e => (e.1, f e.2), List.pairwise_map.mpr m.sorted⟩

/-- The entries that a test accepts. -/
def filter (p : K × V → Bool) (m : OrderedMap K V) : OrderedMap K V :=
  ⟨m.entries.filter p, m.sorted.filter p⟩

theorem lookup_mapValues (f : V → V) (k : K) : (m.mapValues f).lookup k = (m.lookup k).map f := by
  rw [lookup, lookup, mapValues, List.find?_map, Option.map_map, Option.map_map]
  rfl

theorem lookup_filter (p : K × V → Bool) (k : K) :
    (m.filter p).lookup k = (m.lookup k).filter fun v => p (k, v) := by
  ext v
  rw [lookup_eq_some_iff, filter, List.mem_filter, Option.filter_eq_some_iff, lookup_eq_some_iff]

end OrderedMap
end Ordered
