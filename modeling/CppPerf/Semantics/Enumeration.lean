import Mathlib.Data.List.Chain
import Mathlib.Data.Set.Card

/-! Lists that hold each element of a set once, and the chains of a relation. -/
namespace Enumeration

variable {α β : Type*} {l l' : List α} {p q : α → Prop}

/-- Each element with the property is in the list, once. -/
structure Enumerates (l : List α) (p : α → Prop) : Prop where
  nodup : l.Nodup
  mem_iff : ∀ x, x ∈ l ↔ p x

theorem Enumerates.encard_eq (h : Enumerates l p) : {x | p x}.encard = l.length := by
  classical
  have hSet : {x | p x} = (l.toFinset : Set α) := by
    ext x
    simp [h.mem_iff]
  rw [hSet, Set.encard_coe_eq_coe_finsetCard, List.toFinset_card_of_nodup h.nodup]

theorem Enumerates.congr (h : Enumerates l p) (hIff : ∀ x, p x ↔ q x) : Enumerates l q :=
  ⟨h.nodup, fun x => (h.mem_iff x).trans (hIff x)⟩

theorem enumerates_nil (h : ∀ x, ¬p x) : Enumerates [] p :=
  ⟨List.nodup_nil, fun x => iff_of_false List.not_mem_nil (h x)⟩

theorem enumerates_singleton (a : α) : Enumerates [a] (· = a) :=
  ⟨List.nodup_singleton a, fun _ => List.mem_singleton⟩

theorem Enumerates.append (h : Enumerates l p) (h' : Enumerates l' q)
    (hApart : ∀ x, p x → ¬q x) : Enumerates (l ++ l') fun x => p x ∨ q x := by
  constructor
  · refine h.nodup.append h'.nodup fun x hx hx' => ?_
    exact hApart x ((h.mem_iff x).mp hx) ((h'.mem_iff x).mp hx')
  · intro x
    rw [List.mem_append, h.mem_iff, h'.mem_iff]

theorem Enumerates.map {f : α → β} (h : Enumerates l p) (hInj : Function.Injective f) :
    Enumerates (l.map f) fun y => ∃ x, p x ∧ f x = y := by
  refine ⟨h.nodup.map hInj, fun y => ?_⟩
  rw [List.mem_map]
  exact exists_congr fun x => and_congr_left fun _ => h.mem_iff x

/-- The lists with an enumerated head and a tail that is enumerated for it. -/
theorem Enumerates.flatMap_cons {tails : α → List (List α)} {r : α → List α → Prop}
    (h : Enumerates l p) (hTails : ∀ a, p a → Enumerates (tails a) (r a)) :
    Enumerates (l.flatMap fun a => (tails a).map (a :: ·))
      fun x => ∃ a rest, x = a :: rest ∧ p a ∧ r a rest := by
  constructor
  · rw [List.nodup_flatMap]
    constructor
    · intro a ha
      exact (hTails a ((h.mem_iff a).mp ha)).nodup.map fun _ _ hEq => List.tail_eq_of_cons_eq hEq
    · refine h.nodup.imp fun hNe x hx hx' => hNe ?_
      obtain ⟨rest, -, rfl⟩ := List.mem_map.mp hx
      obtain ⟨rest', -, hEq⟩ := List.mem_map.mp hx'
      exact (List.head_eq_of_cons_eq hEq).symm
  · intro x
    simp only [List.mem_flatMap, List.mem_map, h.mem_iff]
    constructor
    · rintro ⟨a, ha, rest, hRest, rfl⟩
      exact ⟨a, rest, rfl, ha, ((hTails a ha).mem_iff rest).mp hRest⟩
    · rintro ⟨a, rest, rfl, ha, hRest⟩
      exact ⟨a, ha, rest, ((hTails a ha).mem_iff rest).mpr hRest, rfl⟩

/-- The lists of `n` elements with each element among the successors of the one before it. -/
def chains (next : α → List α) : (n : Nat) → α → List (List α)
  | 0, _ => [[]]
  | n + 1, a => (next a).flatMap fun b => (chains next n b).map (b :: ·)

/-- The number of chains, by the same recursion. -/
def countChains (next : α → List α) : (n : Nat) → α → Nat
  | 0, _ => 1
  | n + 1, a => ((next a).map (countChains next n)).sum

theorem length_chains (next : α → List α) (n : Nat) (a : α) :
    (chains next n a).length = countChains next n a := by
  induction n generalizing a with
  | zero => rfl
  | succ n ih =>
      simp only [chains, countChains, List.length_flatMap, List.length_map]
      rw [funext ih]

variable {next : α → List α} {R : α → α → Prop}

theorem enumerates_chains (h : ∀ a, p a → Enumerates (next a) fun b => p b ∧ R a b) (n : Nat)
    {a : α} (ha : p a) :
    Enumerates (chains next n a) fun x =>
      x.length = n ∧ (∀ b ∈ x, p b) ∧ (a :: x).IsChain R := by
  induction n generalizing a with
  | zero =>
      refine (enumerates_singleton []).congr fun x => ?_
      rw [List.length_eq_zero_iff]
      constructor
      · rintro rfl
        exact ⟨rfl, by simp, List.isChain_singleton a⟩
      · exact And.left
  | succ n ih =>
      refine ((h a ha).flatMap_cons fun b hb => ih hb.1).congr fun x => ?_
      constructor
      · rintro ⟨b, rest, rfl, ⟨hb, hEdge⟩, hLength, hAll, hChain⟩
        exact ⟨by simp [hLength], List.forall_mem_cons.mpr ⟨hb, hAll⟩, hChain.cons_cons hEdge⟩
      · rintro ⟨hLength, hAll, hChain⟩
        cases x with
        | nil => cases hLength
        | cons b rest =>
            rw [List.isChain_cons_cons] at hChain
            exact ⟨b, rest, rfl, ⟨hAll b (by simp), hChain.1⟩, by simpa using hLength,
              fun c hc => hAll c (by simp [hc]), hChain.2⟩

/-- All chains, with any first element. -/
theorem enumerates_all_chains (hFirst : Enumerates l p)
    (h : ∀ a, p a → Enumerates (next a) fun b => p b ∧ R a b) (n : Nat) :
    Enumerates (l.flatMap fun a => (chains next n a).map (a :: ·)) fun x =>
      x.length = n + 1 ∧ (∀ b ∈ x, p b) ∧ x.IsChain R := by
  refine (hFirst.flatMap_cons fun a ha => enumerates_chains h n ha).congr fun x => ?_
  constructor
  · rintro ⟨a, rest, rfl, ha, hLength, hAll, hChain⟩
    exact ⟨by simp [hLength], List.forall_mem_cons.mpr ⟨ha, hAll⟩, hChain⟩
  · rintro ⟨hLength, hAll, hChain⟩
    cases x with
    | nil => cases hLength
    | cons a rest =>
        exact ⟨a, rest, rfl, hAll a (by simp), by simpa using hLength,
          fun b hb => hAll b (by simp [hb]), hChain⟩

theorem length_all_chains (l : List α) (next : α → List α) (n : Nat) :
    (l.flatMap fun a => (chains next n a).map (a :: ·)).length =
      (l.map (countChains next n)).sum := by
  simp only [List.length_flatMap, List.length_map, length_chains]

end Enumeration
