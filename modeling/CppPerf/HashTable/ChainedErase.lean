import CppPerf.HashTable.ChainedRefinement
import CppPerf.HashTable.ChainedLoops

/-! The answer of `erase`. Erased nodes keep their data, and `erase` does not
look at the flag of the node that it finds. -/
namespace CppPerf.HashTable.HashTableBase

open Indexed Transition

variable {α : Type*}

/-- The nodes are in the chains of their hash values. -/
structure Homed [Hashable α] (t : HashTableBase α) : Prop where
  size_ne : t.iSize ≠ 0
  size_eq : ∀ elements, t.pElements = some elements → elements.size = t.iSize
  home : ∀ elements, t.pElements = some elements →
    ∀ i < elements.size, ∀ e ∈ elements.get i, t.bucketOf e.pData = i

/-- Some node of the kind holds the key. -/
def Holds [BEq α] (t : HashTableBase α) (kind : HashElement α → Bool) (x : α) : Prop :=
  ∃ e ∈ t.nodes, kind e = true ∧ (e.pData == x) = true

/-- The answer is whether the table held the key, and a refusal changes nothing. -/
structure EraseTruthful [BEq α] [Hashable α] (t : HashTableBase α) (x : α) : Prop where
  true_iff : (t.erase (some x)).2 = true ↔ t.Holds HashElement.live x
  find_eq : ∀ now, (t.find x now).2.isSome = (t.erase (some x)).2
  unchanged : (t.erase (some x)).2 = false → (t.erase (some x)).1 = t

variable [Hashable α]

namespace Homed

variable {t : HashTableBase α} {elements : Vec (List (HashElement α))}

theorem bucketOf_lt (h : t.Homed) (hElements : t.pElements = some elements) (x : α) :
    t.bucketOf x < elements.size := by
  rw [h.size_eq elements hElements]
  exact Nat.mod_lt _ (Nat.pos_of_ne_zero h.size_ne)

/-- A chain is replaced by one with the same data, but for that of the key. -/
theorem set {t' : HashTableBase α} (h : t.Homed) (hElements : t.pElements = some elements)
    {x : α} {chain : List (HashElement α)} (hSize : t'.iSize = t.iSize)
    (hTable : t'.pElements = some (elements.set (t.bucketOf x) chain))
    (hChain : ∀ e ∈ chain, t.bucketOf e.pData = t.bucketOf x) : t'.Homed := by
  have hBucket : t'.bucketOf = t.bucketOf := by
    funext y
    rw [bucketOf, bucketOf, hSize]
  constructor
  case size_ne =>
    rw [hSize]
    exact h.size_ne
  case size_eq =>
    intro elements' hElements'
    obtain rfl := Option.some.inj (hTable.symm.trans hElements')
    rw [Vec.size_set, hSize, h.size_eq elements hElements]
  case home =>
    intro elements' hElements' i hi e he
    obtain rfl := Option.some.inj (hTable.symm.trans hElements')
    rw [hBucket]
    rw [Vec.get_set] at he
    split_ifs at he with hSame
    · rw [hChain e he, hSame]
    · exact h.home elements hElements i hi e he

variable [BEq α]

theorem erase (h : t.Homed) (pData : Option α) : (t.erase pData).1.Homed := by
  cases hElements : t.pElements with
  | none => simpa [HashTableBase.erase, hElements] using h
  | some elements =>
      cases pData with
      | none => simpa [HashTableBase.erase, hElements] using h
      | some x =>
          rcases erase_cases hElements h.size_ne x with
            ⟨_, hErase⟩ | ⟨front, e, back, hChain, _, hErase⟩
          · rw [hErase]
            exact h
          · have hHome := h.home elements hElements _ (h.bucketOf_lt hElements x)
            rw [hChain] at hHome
            rw [hErase]
            apply h.set hElements _ rfl
            · intro a ha
              rcases List.mem_append.mp ha with ha | ha
              · exact hHome a (by simp [ha])
              · rcases List.mem_cons.mp ha with rfl | ha
                · rw [removeElement_pData]
                  exact hHome e (by simp)
                · exact hHome a (by simp [ha])
            · rw [removeElement]
              split_ifs <;> rfl

theorem insert (h : t.Homed) (pData : Option α) (alloc : Bool) (now : Int) :
    (t.insert pData alloc now).1.Homed := by
  cases hElements : t.pElements with
  | none => simpa [HashTableBase.insert, hElements] using h
  | some elements =>
      cases pData with
      | none => simpa [HashTableBase.insert, hElements] using h
      | some x =>
          obtain ⟨chain, hChain⟩ : ∃ chain,
              Rechained t (t.insert (some x) alloc now).1 elements (t.bucketOf x) x chain := by
            obtain ⟨chain, ⟨_, hCase⟩ | ⟨_, hCase⟩⟩ := insert_cases hElements x alloc now
            · exact ⟨chain, hCase.toRechained⟩
            · exact ⟨chain, hCase.toRechained⟩
          apply h.set hElements hChain.size_eq hChain.table_eq
          intro e he
          rcases hChain.nodes e he with he | he
          · exact h.home elements hElements _ (h.bucketOf_lt hElements x) e he
          · rw [he]

theorem erase_unchanged (h : t.Homed) (x : α) (hFalse : (t.erase (some x)).2 = false) :
    (t.erase (some x)).1 = t := by
  cases hElements : t.pElements with
  | none => simp only [HashTableBase.erase, hElements]
  | some elements =>
      rcases erase_cases hElements h.size_ne x with ⟨_, hErase⟩ | ⟨_, _, _, _, _, hErase⟩
      · rw [hErase]
      · rw [hErase] at hFalse
        cases hFalse

variable [EquivBEq α] [LawfulHashable α]

/-- Only the chain of its hash value can hold a key. -/
theorem holds_iff (h : t.Homed) (hElements : t.pElements = some elements)
    (kind : HashElement α → Bool) (x : α) :
    t.Holds kind x ↔
      ∃ e ∈ elements.get (t.bucketOf x), kind e = true ∧ (e.pData == x) = true := by
  simp only [Holds, nodes, hElements, List.mem_flatMap, List.mem_range]
  constructor
  · intro hHolds
    obtain ⟨e, ⟨i, hi, he⟩, hKind, hKey⟩ := hHolds
    have hHome := h.home elements hElements i hi e he
    rw [bucketOf_congr t hKey] at hHome
    rw [hHome]
    exact ⟨e, he, hKind, hKey⟩
  · intro hHolds
    obtain ⟨e, he, hKind, hKey⟩ := hHolds
    exact ⟨e, ⟨_, h.bucketOf_lt hElements x, he⟩, hKind, hKey⟩

theorem find_iff (h : t.Homed) (x : α) (now : Int) :
    (t.find x now).2.isSome = true ↔ t.Holds HashElement.live x := by
  cases hElements : t.pElements with
  | none => simp [find, Holds, nodes, hElements]
  | some elements =>
      rw [h.holds_iff hElements]
      simp only [find, hElements, h.size_ne, ↓reduceIte]
      rcases findLoop_cases x now (elements.get (t.bucketOf x)) with
        ⟨hNone, hLoop⟩ | ⟨front, e, back, hChain, hLive, hKey, hLoop⟩
      · simp only [hLoop, Option.isSome_none, Bool.false_eq_true, false_iff]
        intro hHolds
        obtain ⟨e, he, hLive, hKey⟩ := hHolds
        rw [hNone e he hLive] at hKey
        cases hKey
      · simp only [hLoop, Option.isSome_some, true_iff]
        exact ⟨e, by simp [hChain], hLive, hKey⟩

/-- The answer does not depend on the flags. -/
theorem erase_iff (h : t.Homed) (x : α) :
    (t.erase (some x)).2 = true ↔
      t.Holds HashElement.live x ∨ t.Holds HashElement.bErased x := by
  cases hElements : t.pElements with
  | none => simp [HashTableBase.erase, Holds, nodes, hElements]
  | some elements =>
      rw [h.holds_iff hElements, h.holds_iff hElements]
      rcases erase_cases hElements h.size_ne x with
        ⟨hNone, hErase⟩ | ⟨front, e, back, hChain, hKey, hErase⟩
      · rw [hErase]
        simp only [Bool.false_eq_true, false_iff, not_or, not_exists, not_and,
          Bool.not_eq_true]
        exact ⟨fun e he _ => hNone e he, fun e he _ => hNone e he⟩
      · rw [hErase]
        simp only [true_iff]
        cases hErased : e.bErased with
        | false => exact Or.inl ⟨e, by simp [hChain], by simp [HashElement.live, hErased], hKey⟩
        | true => exact Or.inr ⟨e, by simp [hChain], hErased, hKey⟩

/-- The answer is truthful exactly if an erased node that holds the key is not
alone in doing so. -/
theorem eraseTruthful_iff (h : t.Homed) (x : α) :
    t.EraseTruthful x ↔ (t.Holds HashElement.bErased x → t.Holds HashElement.live x) := by
  constructor
  · intro hTruthful hStale
    exact hTruthful.true_iff.mp ((h.erase_iff x).mpr (Or.inr hStale))
  · intro hStale
    have hTrue : (t.erase (some x)).2 = true ↔ t.Holds HashElement.live x :=
      (h.erase_iff x).trans (or_iff_left_of_imp hStale)
    refine ⟨hTrue, ?_, h.erase_unchanged x⟩
    intro now
    rw [Bool.eq_iff_iff, h.find_iff, hTrue]

end Homed

theorem initial_homed (iDesiredSize : Nat) (alloc : Bool) :
    (hashInitialize ({} : HashTableBase α) iDesiredSize alloc).1.Homed := by
  have hSize : calcSize iDesiredSize ≠ 0 := by
    have hPos := calcSize_pos iDesiredSize
    omega
  cases alloc with
  | true =>
      refine ⟨hSize, ?_, ?_⟩
      · intro elements hElements
        obtain rfl := Option.some.inj hElements
        rfl
      · intro elements hElements i _ e he
        obtain rfl := Option.some.inj hElements
        cases he
  | false =>
      refine ⟨hSize, ?_, ?_⟩
      · intro elements hElements
        cases hElements
      · intro elements hElements
        cases hElements

variable [BEq α]

theorem update_homed (s : HashTableBase α × List Nat) (u : Update α)
    (s' : HashTableBase α × List Nat) (h : s.1.Homed) (hStep : update s u = some s') :
    s'.1.Homed := by
  cases u with
  | insert pData alloc now =>
      obtain rfl := Option.some.inj hStep
      exact h.insert pData alloc now
  | erase pData =>
      obtain rfl := Option.some.inj hStep
      exact h.erase pData

/-- In every state of every run and for every key, `erase` is truthful exactly
if it is not the case that only erased nodes hold the key. -/
theorem always_eraseTruthful_iff [EquivBEq α] [LawfulHashable α] (iDesiredSize : Nat)
    (alloc : Bool) (updates : List (Update α)) :
    Always update
      (fun s => ∀ x, s.1.EraseTruthful x ↔
        (s.1.Holds HashElement.bErased x → s.1.Holds HashElement.live x))
      ((hashInitialize {} iDesiredSize alloc).1, []) updates := by
  have hInvariant : Always update (fun s => s.1.Homed)
      ((hashInitialize ({} : HashTableBase α) iDesiredSize alloc).1, []) updates :=
    always_of_invariant update_homed updates (initial_homed iDesiredSize alloc)
  apply hInvariant.mono
  intro s h x
  exact h.eraseTruthful_iff x

theorem always_eraseTruthful_iff_twice :
    Always update
      (fun s => ∀ x, s.1.EraseTruthful x ↔
        (s.1.Holds HashElement.bErased x → s.1.Holds HashElement.live x))
      ((hashInitialize {} 10 true).1, [])
      [.insert (some 1) true 0, .erase (some 1), .erase (some (1 : Nat))] :=
  always_eraseTruthful_iff 10 true _

/-- A key that has been erased is erased once more. -/
theorem not_eraseTruthful_twice :
    ¬Always update (fun s => ∀ x, s.1.EraseTruthful x) ((hashInitialize {} 10 true).1, [])
      [.insert (some 1) true 0, .erase (some (1 : Nat))] := by
  intro hAlways
  have hRun : ((run update ((hashInitialize {} 10 true).1, [])
      [.insert (some 1) true 0, .erase (some (1 : Nat))]).map
        fun s => ((s.1.erase (some 1)).2, (s.1.find 1 0).2.isSome)) = some (true, false) := by
    decide +kernel
  obtain ⟨s, hFinish, hAnswers⟩ := Option.map_eq_some_iff.mp hRun
  have hFind := (hAlways.finish hFinish 1).find_eq 0
  obtain ⟨hErase, hNone⟩ := Prod.mk.inj hAnswers
  rw [hErase, hNone] at hFind
  cases hFind

end CppPerf.HashTable.HashTableBase
