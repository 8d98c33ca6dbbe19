import CppPerf.Semantics.PrefixTree
import Mathlib.Data.List.Forall2

/-! `Trie` of `trie.h`. A character is taken as an index into the children, which
fails for all but lower-case letters. -/
namespace CppPerf.Tries

open PrefixTree

/-- What the specialisations differ in. A new node has the label `init`. -/
class Label (α : Type) where
  init : α
  setLabel : (v : List Char) → (v2 : α) → α
  complete : α → Bool

instance : Label Bool where
  init := false
  setLabel _ _ := true
  complete val := val

instance : Label Int where
  init := 0
  setLabel _ v2 := v2
  complete _ := true

instance : Label (List Char) where
  init := []
  setLabel v _ := v
  complete val := !val.isEmpty

abbrev Node (α : Type) := PrefixTree.Node (Fin 26) α

/-- `c - 'a'` -/
def next (c : Char) : Option (Fin 26) :=
  if h : 97 ≤ c.toNat ∧ c.toNat - 97 < 26 then some ⟨c.toNat - 97, h.2⟩ else none

namespace Node

variable {α : Type} [Label α]

/-- The third argument is what follows `idx` in the word, here and below. -/
def put (word : List Char) (b : α) : List Char → Node α → Option (Node α)
  | [], n => some (n.setVal (Label.setLabel word b))
  | c :: rest, n => do
      let next ← next c
      let child ← put word b rest ((n.child next).getD (.leaf Label.init))
      return n.setChild next child

def find_prefix : List Char → Node α → Option (Option (Node α))
  | [], n => some (some n)
  | c :: rest, n => do
      let next ← next c
      match n.child next with
      | some child => find_prefix rest child
      | none => return none

def find (word : List Char) (n : Node Bool) : Option Bool := do
  let found ← find_prefix word n
  return found.any Node.val

def find_wild : List Char → Node α → Option Bool
  | [], n => some (Label.complete n.val)
  | c :: rest, n =>
      if c = '.' then
        (List.finRange 26).anyM fun k =>
          match n.child k with
          | some child => find_wild rest child
          | none => some false
      else do
        let idx ← next c
        match n.child idx with
        | some child => find_wild rest child
        | none => return false

end Node

/-! The trie over words of lower-case letters. Its nodes are the prefixes of the
words that were put, and its marked nodes are those words. -/

/-- The characters from `a` to `z`. -/
def IsLetter (c : Char) : Prop := 97 ≤ c.toNat ∧ c.toNat ≤ 122

/-- The child that a letter leads to. -/
def key (c : Char) : Fin 26 := Fin.ofNat 26 (c.toNat - 97)

/-- A pattern matches words of its own length. -/
def Matches (q w : List Char) : Prop := List.Forall₂ (fun c d => c = '.' ∨ c = d) q w

theorem next_eq {c : Char} (h : IsLetter c) : next c = some (key c) := by
  have hRange : 97 ≤ c.toNat ∧ c.toNat - 97 < 26 := ⟨h.1, by have := h.2; omega⟩
  rw [next, dif_pos hRange]
  exact congrArg some (Fin.ext (Nat.mod_eq_of_lt hRange.2).symm)

theorem key_inj {c d : Char} (hc : IsLetter c) (hd : IsLetter d) (h : key c = key d) : c = d := by
  have hVal : (c.toNat - 97) % 26 = (d.toNat - 97) % 26 := congrArg Fin.val h
  have := hc.1
  have := hc.2
  have := hd.1
  have := hd.2
  exact Char.toNat_inj.mp (by omega)

theorem map_key_inj {u w : List Char} (hu : ∀ c ∈ u, IsLetter c) (hw : ∀ c ∈ w, IsLetter c) :
    u.map key = w.map key ↔ u = w := by
  refine ⟨fun h => ?_, congrArg _⟩
  induction u generalizing w with
  | nil => exact (List.map_eq_nil_iff.mp h.symm).symm
  | cons c u ih =>
      cases w with
      | nil => cases h
      | cons d w =>
          obtain ⟨hHead, hTail⟩ := List.cons.inj h
          obtain ⟨hc, hu⟩ := List.forall_mem_cons.mp hu
          obtain ⟨hd, hw⟩ := List.forall_mem_cons.mp hw
          rw [key_inj hc hd hHead, ih hu hw hTail]

theorem map_key_prefix {u w : List Char} (hu : ∀ c ∈ u, IsLetter c) (hw : ∀ c ∈ w, IsLetter c) :
    u.map key <+: w.map key ↔ u <+: w := by
  refine ⟨fun h => ?_, fun h => List.IsPrefix.map key h⟩
  rw [List.prefix_iff_eq_take, List.length_map, ← List.map_take] at h
  rw [List.prefix_iff_eq_take]
  exact (map_key_inj hu fun c hc => hw c (List.mem_of_mem_take hc)).mp h

/-- A pattern matches a word if each of its letters leads to the same child. -/
theorem matches_iff {q w : List Char} (hq : ∀ c ∈ q, IsLetter c ∨ c = '.')
    (hw : ∀ c ∈ w, IsLetter c) :
    Matches q w ↔ List.Forall₂ (fun c k => c = '.' ∨ key c = k) q (w.map key) := by
  rw [Matches]
  induction q generalizing w with
  | nil => cases w <;> simp
  | cons c q ih =>
      cases w with
      | nil => simp
      | cons d w =>
          obtain ⟨hc, hq⟩ := List.forall_mem_cons.mp hq
          obtain ⟨hd, hw⟩ := List.forall_mem_cons.mp hw
          rw [List.map_cons, List.forall₂_cons, List.forall₂_cons, ih hq hw]
          refine and_congr_left fun _ => or_congr_right' fun hDot => ?_
          exact ⟨congrArg key, key_inj (hc.resolve_right hDot) hd⟩

namespace Node

section Walk

variable {α : Type} [Label α]

theorem put_eq (word : List Char) (b : α) {w : List Char} (hw : ∀ c ∈ w, IsLetter c)
    (n : Node α) :
    put word b w n = some (n.modify Label.init (fun _ => Label.setLabel word b) (w.map key)) := by
  induction w generalizing n with
  | nil => rfl
  | cons c w ih =>
      obtain ⟨hc, hw⟩ := List.forall_mem_cons.mp hw
      rw [put, next_eq hc, Option.bind_eq_bind, Option.bind_some, ih hw]
      rfl

omit [Label α] in
theorem find_prefix_eq {p : List Char} (hp : ∀ c ∈ p, IsLetter c) (n : Node α) :
    find_prefix p n = some (n.descend (p.map key)) := by
  induction p generalizing n with
  | nil => rfl
  | cons c p ih =>
      obtain ⟨hc, hp⟩ := List.forall_mem_cons.mp hp
      rw [ find_prefix, next_eq hc, Option.bind_eq_bind, Option.bind_some, List.map_cons,
        PrefixTree.Node.descend]
      cases n.child (key c) with
      | none => rfl
      | some child => exact ih hp child

theorem foldlM_put (b : α) {words : List (List Char)} (hWords : ∀ w ∈ words, ∀ c ∈ w, IsLetter c)
    (n : Node α) :
    words.foldlM (fun n w => put w b w n) n =
      some (words.foldl (fun n w =>
        n.modify Label.init (fun _ => Label.setLabel w b) (w.map key)) n) := by
  induction words generalizing n with
  | nil => rfl
  | cons w words ih =>
      obtain ⟨hw, hWords⟩ := List.forall_mem_cons.mp hWords
      rw [List.foldlM_cons, put_eq w b hw, Option.bind_eq_bind, Option.bind_some, ih hWords]
      rfl

/-- A search that never fails finds what one of its parts finds. -/
theorem anyM_iff {κ : Type} {f : κ → Option Bool} {P : κ → Prop} (l : List κ)
    (h : ∀ k ∈ l, ∃ r, f k = some r ∧ (r = true ↔ P k)) :
    ∃ r, l.anyM f = some r ∧ (r = true ↔ ∃ k ∈ l, P k) := by
  induction l with
  | nil => exact ⟨false, rfl, by simp⟩
  | cons k l ih =>
      obtain ⟨hk, hl⟩ := List.forall_mem_cons.mp h
      obtain ⟨r, hr, hIff⟩ := hk
      rw [List.anyM_cons, hr, Option.bind_eq_bind, Option.bind_some]
      cases r with
      | true => exact ⟨true, rfl, by simp [hIff.mp rfl]⟩
      | false =>
          obtain ⟨s, hs, hRest⟩ := ih hl
          refine ⟨s, hs, hRest.trans ?_⟩
          rw [List.exists_mem_cons_iff, or_iff_right fun hk => Bool.false_ne_true (hIff.mpr hk)]

/-- The child at a letter of the pattern, or none. -/
theorem exists_cons_iff (c : Char) (q : List Char) (n : Node α) :
    (∃ ks, List.Forall₂ (fun c k => c = '.' ∨ key c = k) (c :: q) ks ∧
        ∃ a, n.label ks = some a ∧ Label.complete a = true) ↔
      ∃ k, (c = '.' ∨ key c = k) ∧ ∃ child, n.child k = some child ∧
        ∃ ks, List.Forall₂ (fun c k => c = '.' ∨ key c = k) q ks ∧
          ∃ a, child.label ks = some a ∧ Label.complete a = true := by
  constructor
  · rintro ⟨ks, hMatch, a, ha, hComplete⟩
    obtain ⟨k, ks, hk, hks, rfl⟩ := List.forall₂_cons_left_iff.mp hMatch
    rw [PrefixTree.Node.label_cons] at ha
    obtain ⟨child, hChild, ha⟩ := Option.bind_eq_some_iff.mp ha
    exact ⟨k, hk, child, hChild, ks, hks, a, ha, hComplete⟩
  · rintro ⟨k, hk, child, hChild, ks, hks, a, ha, hComplete⟩
    refine ⟨k :: ks, List.Forall₂.cons hk hks, a, ?_, hComplete⟩
    rw [PrefixTree.Node.label_cons, hChild, Option.bind_some, ha]

theorem find_wild_cons (c : Char) (q : List Char) (n : Node α) :
    find_wild (c :: q) n =
      if c = '.' then
        (List.finRange 26).anyM fun k => (n.child k).elim (some false) (find_wild q)
      else (next c).bind fun k => (n.child k).elim (some false) (find_wild q) := by
  rw [find_wild]
  refine if_congr Iff.rfl ?_ ?_
  · refine congrArg (List.anyM · _) (funext fun k => ?_)
    cases n.child k <;> rfl
  · refine congrArg (Option.bind _) (funext fun k => ?_)
    cases n.child k <;> rfl

/-- The wildcard search stays within the children, and finds a complete node at the
end of a path that the pattern allows. -/
theorem find_wild_iff {q : List Char} (hq : ∀ c ∈ q, IsLetter c ∨ c = '.') (n : Node α) :
    ∃ r, find_wild q n = some r ∧
      (r = true ↔ ∃ ks, List.Forall₂ (fun c k => c = '.' ∨ key c = k) q ks ∧
        ∃ a, n.label ks = some a ∧ Label.complete a = true) := by
  induction q generalizing n with
  | nil => exact ⟨Label.complete n.val, rfl, by simp⟩
  | cons c q ih =>
      obtain ⟨hc, hq⟩ := List.forall_mem_cons.mp hq
      rw [find_wild_cons]
      simp only [exists_cons_iff]
      have hChild (k : Fin 26) : ∃ r, (n.child k).elim (some false) (find_wild q) = some r ∧
          (r = true ↔ ∃ child, n.child k = some child ∧
            ∃ ks, List.Forall₂ (fun c k => c = '.' ∨ key c = k) q ks ∧
              ∃ a, child.label ks = some a ∧ Label.complete a = true) := by
        cases hk : n.child k with
        | none => exact ⟨false, rfl, by simp⟩
        | some child =>
            obtain ⟨r, hr, hIff⟩ := ih hq child
            refine ⟨r, hr, hIff.trans ?_⟩
            simp only [Option.some.injEq, exists_eq_left']
      by_cases hDot : c = '.'
      · rw [if_pos hDot]
        obtain ⟨r, hr, hIff⟩ := anyM_iff (List.finRange 26) fun k _ => hChild k
        refine ⟨r, hr, hIff.trans ?_⟩
        simp only [List.mem_finRange, hDot, true_or, true_and]
      · rw [if_neg hDot, next_eq (hc.resolve_right hDot), Option.bind_some]
        obtain ⟨r, hr, hIff⟩ := hChild (key c)
        refine ⟨r, hr, hIff.trans ?_⟩
        simp only [hDot, false_or, exists_eq_left']

end Walk

/-- Put the words one after the other, with the default label. -/
def putAll (words : List (List Char)) (n : Node Bool) : Option (Node Bool) :=
  words.foldlM (fun n w => put w Label.init w n) n

section Words

variable {words : List (List Char)} (hWords : ∀ w ∈ words, ∀ c ∈ w, IsLetter c)

include hWords

theorem putAll_eq (n : Node Bool) :
    putAll words n = some ((words.map (List.map key)).foldl
      (fun n w => n.modify false (fun _ => true) w) n) := by
  rw [putAll, foldlM_put _ hWords, List.foldl_map]
  rfl

theorem mem_map_key {w : List Char} (hw : ∀ c ∈ w, IsLetter c) :
    w.map key ∈ words.map (List.map key) ↔ w ∈ words := by
  refine ⟨fun h => ?_, List.mem_map_of_mem⟩
  obtain ⟨v, hv, hEq⟩ := List.mem_map.mp h
  exact (map_key_inj (hWords v hv) hw).mp hEq ▸ hv

/-- What the walks of a search see of the tree. -/
theorem putAll_label {root : Node Bool} (h : putAll words (.leaf Label.init) = some root) :
    (∀ ks, root.label ks = some true ↔ ks ∈ words.map (List.map key)) ∧
      ∀ ks, (root.label ks).isSome ↔ ks = [] ∨ ∃ w ∈ words, ks <+: w.map key := by
  rw [putAll_eq hWords] at h
  cases h
  refine ⟨fun ks => ?_, fun ks => ?_⟩
  · rw [PrefixTree.Node.label_foldl_eq_some false Bool.false_ne_true, or_iff_left]
    cases ks with
    | nil => exact fun h => Bool.false_ne_true (Option.some.inj h)
    | cons k ks => exact fun h => nomatch h
  · rw [PrefixTree.Node.label_foldl_isSome, or_comm]
    refine or_congr ?_ (by simp only [List.mem_map, exists_exists_and_eq_and])
    cases ks with
    | nil => exact iff_of_true rfl rfl
    | cons k ks => exact iff_of_false Bool.false_ne_true (List.cons_ne_nil k ks)

end Words

/-- The trie of a list of words finds the words, their prefixes, and the patterns
that some word matches. -/
theorem putAll_searches (words : List (List Char)) (hWords : ∀ w ∈ words, ∀ c ∈ w, IsLetter c) :
    ∃ root, putAll words (.leaf Label.init) = some root ∧
      (∀ w, (∀ c ∈ w, IsLetter c) → root.find w = some (decide (w ∈ words))) ∧
      (∀ p, (∀ c ∈ p, IsLetter c) → ∃ found, find_prefix p root = some found ∧
        (found.isSome ↔ p = [] ∨ ∃ w ∈ words, p <+: w)) ∧
      ∀ q, (∀ c ∈ q, IsLetter c ∨ c = '.') → ∃ found, root.find_wild q = some found ∧
        (found = true ↔ ∃ w ∈ words, Matches q w) := by
  obtain ⟨root, hRoot⟩ : ∃ root, putAll words (.leaf Label.init) = some root :=
    ⟨_, putAll_eq hWords _⟩
  obtain ⟨hMarked, hNodes⟩ := putAll_label hWords hRoot
  refine ⟨root, hRoot, fun w hw => ?_, fun p hp => ?_, fun q hq => ?_⟩
  · rw [find, find_prefix_eq hw, Option.bind_eq_bind, Option.bind_some]
    refine congrArg some (Bool.eq_iff_iff.mpr ?_)
    rw [decide_eq_true_iff, ← mem_map_key hWords hw, ← hMarked, PrefixTree.Node.label,
      Option.any_eq_true, Option.map_eq_some_iff]
  · refine ⟨_, find_prefix_eq hp root, ?_⟩
    rw [← PrefixTree.Node.label_isSome, hNodes]
    refine or_congr List.map_eq_nil_iff (exists_congr fun w => and_congr_right fun hw => ?_)
    exact map_key_prefix hp (hWords w hw)
  · obtain ⟨r, hr, hIff⟩ := find_wild_iff hq root
    refine ⟨r, hr, hIff.trans ?_⟩
    simp only [Label.complete, exists_eq_right, hMarked, List.mem_map]
    constructor
    · rintro ⟨_, hMatch, w, hw, rfl⟩
      exact ⟨w, hw, (matches_iff hq (hWords w hw)).mpr hMatch⟩
    · rintro ⟨w, hw, hMatch⟩
      exact ⟨_, (matches_iff hq (hWords w hw)).mp hMatch, w, hw, rfl⟩

/-- The empty word, and a word that begins another. -/
theorem putAll_searches_three :
    ∃ root, putAll [[], ['b', 'a', 'd'], ['b', 'a']] (.leaf Label.init) = some root ∧
      root.find [] = some true ∧ root.find ['b'] = some false ∧
      root.find_wild ['b', '.'] = some true ∧ root.find_wild ['.', 'b'] = some false := by
  obtain ⟨root, hRoot, hFind, -, hWild⟩ :=
    putAll_searches [[], ['b', 'a', 'd'], ['b', 'a']] (by simp [IsLetter])
  refine ⟨root, hRoot, hFind [] (by simp), hFind ['b'] (by simp [IsLetter]), ?_, ?_⟩
  · obtain ⟨found, hRun, hIff⟩ := hWild ['b', '.'] (by simp [IsLetter])
    rw [hRun, hIff.mpr ⟨['b', 'a'], by simp, by simp [Matches]⟩]
  · obtain ⟨found, hRun, hIff⟩ := hWild ['.', 'b'] (by simp [IsLetter])
    rw [hRun, Option.some.injEq, Bool.eq_false_iff]
    exact fun h => absurd (hIff.mp h) (by simp [Matches])

end Node
end CppPerf.Tries
