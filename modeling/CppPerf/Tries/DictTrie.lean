import CppPerf.Tries.Trie
import Mathlib.Data.Char
import Mathlib.Data.List.Lex

/-! `DictTrie` of `trie.cpp`, a trie of words. -/
namespace CppPerf.Tries.DictTrie

open PrefixTree

def put (root : Node Bool) (word : List Char) : Option (Node Bool) :=
  Node.put word Label.init word root

def buildDict (root : Node Bool) (dict : List (List Char)) : Option (Node Bool) :=
  dict.foldlM put root

/-- The first argument is what follows `idx` in the word, here and below. -/
def completeAll : List Char → Node Bool → Option Bool
  | [], _ => some true
  | c :: word, cur => do
      let next ← next c
      match cur.child next with
      | some child => if child.val then completeAll word child else return false
      | none => return false

/-- One round of the second loop of `longestWord`, for `ans` and `len`. -/
def longestWord_round (root : Node Bool) (best : List Char × Nat) (w : List Char) :
    Option (List Char × Nat) :=
  let (ans, len) := best
  if w.length < len ∨ w.length = len ∧ ans < w then some (ans, len)
  else do
    if ← completeAll w root then return (w, w.length)
    return (ans, len)

/-- The words stay in the trie. -/
def longestWord (root : Node Bool) (words : List (List Char)) :
    Option (List Char × Node Bool) := do
  let root ← words.foldlM put root
  let (ans, _) ← words.foldlM (longestWord_round root) ([], 0)
  return (ans, root)

/-- Allow exactly one different letter. The number of letters that differ so far is `mod`. -/
def magic_search_from : List Char → Node Bool → (mod : Nat) → Option Bool
  | [], cur, mod => some (mod == 1 && cur.val)
  | c :: word, cur, mod =>
      if mod = 1 then Node.find (c :: word) cur
      else
        (List.finRange 26).anyM fun i =>
          match cur.child i with
          | some child => magic_search_from word child (if 97 + i.val = c.toNat then 0 else 1)
          | none => some false

def magic_search (root : Node Bool) (word : List Char) : Option Bool :=
  magic_search_from word root 0

/-! What the queries of a dictionary find. -/

open Node

section Mismatch

variable {α : Type} [DecidableEq α] {u w : List α}

/-- Words of the same length that differ in `n` positions. -/
def DifferIn (n : Nat) (u w : List α) : Prop :=
  u.length = w.length ∧ (u.zip w).countP (fun p => p.1 ≠ p.2) = n

instance (n : Nat) : Decidable (DifferIn n u w) := inferInstanceAs (Decidable (_ ∧ _))

theorem differIn_cons (n : Nat) (c d : α) :
    DifferIn n (c :: u) (d :: w) ↔
      if c = d then DifferIn n u w else ∃ m, n = m + 1 ∧ DifferIn m u w := by
  unfold DifferIn
  rw [List.zip_cons_cons, List.countP_cons, List.length_cons, List.length_cons,
    Nat.add_right_cancel_iff]
  by_cases h : c = d
  · simp [h]
  · simp [h, eq_comm (a := n), and_comm]

theorem differIn_zero : DifferIn 0 u w ↔ u = w := by
  induction u generalizing w with
  | nil =>
      cases w with
      | nil => exact iff_of_true ⟨rfl, rfl⟩ rfl
      | cons d w => exact iff_of_false (fun h => nomatch h.1) (fun h => nomatch h)
  | cons c u ih =>
      cases w with
      | nil => exact iff_of_false (fun h => nomatch h.1) (fun h => nomatch h)
      | cons d w =>
          rw [differIn_cons, ih, List.cons.injEq]
          by_cases h : c = d <;> simp [h]

theorem differIn_one_nil : ¬DifferIn 1 ([] : List α) w := fun h => by
  have hCount := h.2
  rw [List.zip_nil_left] at hCount
  exact absurd hCount Nat.zero_ne_one

/-- The first letter is the same, or all the others are. -/
theorem differIn_one_cons (c : α) (u ks : List α) :
    DifferIn 1 (c :: u) ks ↔
      ∃ k rest, ks = k :: rest ∧ if c = k then DifferIn 1 u rest else u = rest := by
  cases ks with
  | nil => exact iff_of_false (fun h => nomatch h.1) (fun ⟨_, _, h, _⟩ => nomatch h)
  | cons k rest =>
      rw [differIn_cons]
      by_cases h : c = k <;> simp [h, differIn_zero]

end Mismatch

theorem differIn_map_key (n : Nat) {u w : List Char} (hu : ∀ c ∈ u, IsLetter c)
    (hw : ∀ c ∈ w, IsLetter c) : DifferIn n (u.map key) (w.map key) ↔ DifferIn n u w := by
  induction u generalizing w n with
  | nil =>
      cases w with
      | nil => rfl
      | cons d w => exact iff_of_false (fun h => nomatch h.1) (fun h => nomatch h.1)
  | cons c u ih =>
      cases w with
      | nil => exact iff_of_false (fun h => nomatch h.1) (fun h => nomatch h.1)
      | cons d w =>
          obtain ⟨hc, hu⟩ := List.forall_mem_cons.mp hu
          obtain ⟨hd, hw⟩ := List.forall_mem_cons.mp hw
          have hKey : key c = key d ↔ c = d := ⟨key_inj hc hd, congrArg key⟩
          rw [List.map_cons, List.map_cons, differIn_cons, differIn_cons]
          simp only [ih _ hu hw, hKey]

section Search

theorem find_eq {w : List Char} (hw : ∀ c ∈ w, IsLetter c) (n : Node Bool) :
    Node.find w n = some (decide (n.label (w.map key) = some true)) := by
  rw [Node.find, find_prefix_eq hw, Option.bind_eq_bind, Option.bind_some, PrefixTree.Node.label]
  refine congrArg some (Bool.eq_iff_iff.mpr ?_)
  rw [decide_eq_true_iff, Option.any_eq_true, Option.map_eq_some_iff]

theorem key_eq_iff {c : Char} (hc : IsLetter c) (i : Fin 26) :
    97 + i.val = c.toNat ↔ key c = i := by
  have hLow := hc.1
  have hHigh := hc.2
  rw [Fin.ext_iff, key, Fin.val_ofNat]
  omega

theorem magic_search_from_one {word : List Char} (hWord : ∀ c ∈ word, IsLetter c)
    (cur : Node Bool) :
    magic_search_from word cur 1 = some (decide (cur.label (word.map key) = some true)) := by
  cases word with
  | nil => simp [magic_search_from]
  | cons c word =>
      rw [magic_search_from, if_pos rfl]
      exact find_eq hWord cur

theorem magic_search_from_cons (c : Char) (word : List Char) (cur : Node Bool) :
    magic_search_from (c :: word) cur 0 = (List.finRange 26).anyM fun i =>
      (cur.child i).elim (some false) fun child =>
        magic_search_from word child (if 97 + i.val = c.toNat then 0 else 1) := by
  rw [magic_search_from, if_neg (by decide)]
  refine congrArg (List.anyM · _) (funext fun i => ?_)
  cases cur.child i <;> rfl

/-- A marked node at the end of a path that differs once. -/
theorem exists_differ_cons (k : Fin 26) (ks : List (Fin 26)) (cur : Node Bool) :
    (∃ path, DifferIn 1 (k :: ks) path ∧ cur.label path = some true) ↔
      ∃ i child, cur.child i = some child ∧
        if k = i then ∃ path, DifferIn 1 ks path ∧ child.label path = some true
        else child.label ks = some true := by
  constructor
  · rintro ⟨path, hDiffer, hMarked⟩
    obtain ⟨i, rest, rfl, hRest⟩ := (differIn_one_cons k ks path).mp hDiffer
    rw [PrefixTree.Node.label_cons] at hMarked
    obtain ⟨child, hChild, hMarked⟩ := Option.bind_eq_some_iff.mp hMarked
    refine ⟨i, child, hChild, ?_⟩
    split_ifs at hRest ⊢ with hSame
    · exact ⟨rest, hRest, hMarked⟩
    · rw [hRest]
      exact hMarked
  · rintro ⟨i, child, hChild, hMarked⟩
    by_cases hSame : k = i
    · rw [if_pos hSame] at hMarked
      obtain ⟨path, hDiffer, hMarked⟩ := hMarked
      refine ⟨i :: path, (differIn_one_cons k ks _).mpr ⟨i, path, rfl, ?_⟩, ?_⟩
      · rwa [if_pos hSame]
      · rwa [PrefixTree.Node.label_cons, hChild, Option.bind_some]
    · rw [if_neg hSame] at hMarked
      refine ⟨i :: ks, (differIn_one_cons k ks _).mpr ⟨i, ks, rfl, ?_⟩, ?_⟩
      · rw [if_neg hSame]
      · rwa [PrefixTree.Node.label_cons, hChild, Option.bind_some]

/-- Before the first change all children are tried, and after it only one path is left. -/
theorem magic_search_from_zero {word : List Char} (hWord : ∀ c ∈ word, IsLetter c)
    (cur : Node Bool) :
    ∃ r, magic_search_from word cur 0 = some r ∧
      (r = true ↔ ∃ path, DifferIn 1 (word.map key) path ∧ cur.label path = some true) := by
  induction word generalizing cur with
  | nil => exact ⟨false, rfl, by simp [differIn_one_nil]⟩
  | cons c word ih =>
      obtain ⟨hc, hWord⟩ := List.forall_mem_cons.mp hWord
      rw [magic_search_from_cons]
      simp only [List.map_cons, exists_differ_cons, key_eq_iff hc]
      have hChild (i : Fin 26) : ∃ r, (cur.child i).elim (some false) (fun child =>
            magic_search_from word child (if key c = i then 0 else 1)) = some r ∧
          (r = true ↔ ∃ child, cur.child i = some child ∧
            if key c = i then ∃ path, DifferIn 1 (word.map key) path ∧ child.label path = some true
            else child.label (word.map key) = some true) := by
        cases hi : cur.child i with
        | none => exact ⟨false, rfl, by simp⟩
        | some child =>
            simp only [Option.elim_some, Option.some.injEq, exists_eq_left']
            split_ifs with hSame
            · exact ih hWord child
            · exact ⟨_, magic_search_from_one hWord child, decide_eq_true_iff⟩
      obtain ⟨r, hr, hIff⟩ := anyM_iff (List.finRange 26) fun i _ => hChild i
      refine ⟨r, hr, hIff.trans ?_⟩
      simp only [List.mem_finRange, true_and]

/-- All nodes on the path are marked. -/
theorem completeAll_iff {word : List Char} (hWord : ∀ c ∈ word, IsLetter c) (cur : Node Bool) :
    ∃ r, completeAll word cur = some r ∧
      (r = true ↔ ∀ p, p ≠ [] → p <+: word → cur.label (p.map key) = some true) := by
  induction word generalizing cur with
  | nil =>
      refine ⟨true, rfl, iff_of_true rfl fun p hSome hp => ?_⟩
      exact absurd (List.prefix_nil.mp hp) hSome
  | cons c word ih =>
      obtain ⟨hc, hWord⟩ := List.forall_mem_cons.mp hWord
      rw [completeAll, next_eq hc, Option.bind_eq_bind, Option.bind_some]
      have hFirst : [c] <+: c :: word := ⟨word, rfl⟩
      cases hChild : cur.child (key c) with
      | none =>
          refine ⟨false, rfl, iff_of_false Bool.false_ne_true fun h => ?_⟩
          have hLabel := h [c] (List.cons_ne_nil c []) hFirst
          rw [List.map_cons, PrefixTree.Node.label_cons, hChild] at hLabel
          exact nomatch hLabel
      | some child =>
          have hLabel (p : List Char) : cur.label ((c :: p).map key) = child.label (p.map key) := by
            rw [List.map_cons, PrefixTree.Node.label_cons, hChild, Option.bind_some]
          have hVal := hLabel []
          rw [List.map_nil, PrefixTree.Node.label_nil] at hVal
          cases hMark : child.val with
          | false =>
              refine ⟨false, by simp [hMark], iff_of_false Bool.false_ne_true fun h => ?_⟩
              rw [h [c] (List.cons_ne_nil c []) hFirst, hMark] at hVal
              exact nomatch hVal
          | true =>
              obtain ⟨r, hr, hIff⟩ := ih hWord child
              refine ⟨r, by simp [hMark, hr], hIff.trans ⟨fun h p hSome hp => ?_,
                fun h p hSome hp => ?_⟩⟩
              · obtain ⟨q, rfl, hq⟩ := (List.prefix_cons_iff.mp hp).resolve_left hSome
                rw [hLabel]
                cases q with
                | nil => rw [List.map_nil, PrefixTree.Node.label_nil, hMark]
                | cons d q => exact h _ (List.cons_ne_nil d q) hq
              · rw [← hLabel]
                exact h _ (List.cons_ne_nil c p) (List.cons_prefix_cons.mpr ⟨rfl, hp⟩)

end Search

section Longest

variable {words done : List (List Char)} {root : Node Bool} {ans : List Char}

/-- All non-empty prefixes are words. -/
def BuiltUp (words : List (List Char)) (w : List Char) : Prop :=
  ∀ p, p ≠ [] → p <+: w → p ∈ words

/-- Longer than all others that can be built up, or the first of the longest ones in the
alphabet. It is empty if there are none. -/
structure IsLongest (words done : List (List Char)) (ans : List Char) : Prop where
  builtUp : ans = [] ∨ ans ∈ done ∧ BuiltUp words ans
  best : ∀ w ∈ done, BuiltUp words w →
    w.length < ans.length ∨ w.length = ans.length ∧ ans ≤ w

theorem isLongest_nil (words : List (List Char)) : IsLongest words [] [] where
  builtUp := Or.inl rfl
  best _ h := absurd h List.not_mem_nil

theorem isLongest_skip (h : IsLongest words done ans) {w : List Char}
    (hSkip : BuiltUp words w → w.length < ans.length ∨ w.length = ans.length ∧ ans ≤ w) :
    IsLongest words (done ++ [w]) ans where
  builtUp := h.builtUp.imp_right fun hAns => ⟨List.mem_append_left _ hAns.1, hAns.2⟩
  best v hv hBuilt := by
    rcases List.mem_append.mp hv with hOld | hNew
    · exact h.best v hOld hBuilt
    · rw [List.mem_singleton.mp hNew] at hBuilt ⊢
      exact hSkip hBuilt

theorem isLongest_take (h : IsLongest words done ans) {w : List Char} (hBuilt : BuiltUp words w)
    (hTake : ¬(w.length < ans.length ∨ w.length = ans.length ∧ ans < w)) :
    IsLongest words (done ++ [w]) w where
  builtUp := Or.inr ⟨List.mem_append_right _ (List.mem_singleton_self w), hBuilt⟩
  best v hv hv' := by
    obtain ⟨hLonger, hTie⟩ := not_or.mp hTake
    rcases List.mem_append.mp hv with hOld | hNew
    · rcases h.best v hOld hv' with hShorter | ⟨hSame, hLe⟩
      · exact Or.inl (hShorter.trans_le (not_lt.mp hLonger))
      · rcases (not_lt.mp hLonger).lt_or_eq with hLt | hEq
        · exact Or.inl (hSame.trans_lt hLt)
        · have hFirst : w ≤ ans := not_lt.mp fun hLess => hTie ⟨hEq.symm, hLess⟩
          exact Or.inr ⟨hSame.trans hEq, le_trans hFirst hLe⟩
    · rw [List.mem_singleton.mp hNew]
      exact Or.inr ⟨rfl, le_rfl⟩

theorem longestWord_round_isLongest (h : IsLongest words done ans) {w : List Char}
    (hComplete : ∃ r, completeAll w root = some r ∧ (r = true ↔ BuiltUp words w)) :
    ∃ ans', longestWord_round root (ans, ans.length) w = some (ans', ans'.length) ∧
      IsLongest words (done ++ [w]) ans' := by
  obtain ⟨r, hr, hIff⟩ := hComplete
  simp only [longestWord_round]
  split_ifs with hSkip
  · refine ⟨ans, rfl, isLongest_skip h fun _ => ?_⟩
    exact hSkip.imp_right fun hTie => ⟨hTie.1, le_of_lt hTie.2⟩
  · rw [hr, Option.bind_eq_bind, Option.bind_some]
    cases r with
    | true => exact ⟨w, rfl, isLongest_take h (hIff.mp rfl) hSkip⟩
    | false =>
        refine ⟨ans, rfl, isLongest_skip h fun hBuilt => ?_⟩
        exact absurd (hIff.mpr hBuilt) Bool.false_ne_true

/-- What the second loop has found after some of the words. -/
theorem foldlM_longestWord_round (h : IsLongest words done ans) (l : List (List Char))
    (hComplete : ∀ w ∈ l, ∃ r, completeAll w root = some r ∧ (r = true ↔ BuiltUp words w)) :
    ∃ ans', l.foldlM (longestWord_round root) (ans, ans.length) = some (ans', ans'.length) ∧
      IsLongest words (done ++ l) ans' := by
  induction l generalizing done ans with
  | nil =>
      rw [List.append_nil]
      exact ⟨ans, rfl, h⟩
  | cons w l ih =>
      obtain ⟨hw, hl⟩ := List.forall_mem_cons.mp hComplete
      obtain ⟨ans', hRound, h'⟩ := longestWord_round_isLongest h hw
      obtain ⟨last, hLast, hLongest⟩ := ih h' hl
      refine ⟨last, ?_, by rwa [List.append_assoc] at hLongest⟩
      rw [List.foldlM_cons, hRound, Option.bind_eq_bind, Option.bind_some, hLast]

end Longest

section Dictionary

variable {words : List (List Char)} {root : Node Bool}

theorem magic_search_eq (hWords : ∀ w ∈ words, ∀ c ∈ w, IsLetter c)
    (hRoot : putAll words (.leaf Label.init) = some root) {w : List Char}
    (hw : ∀ c ∈ w, IsLetter c) :
    ∃ r, magic_search root w = some r ∧ (r = true ↔ ∃ d ∈ words, DifferIn 1 w d) := by
  obtain ⟨r, hr, hIff⟩ := magic_search_from_zero hw root
  refine ⟨r, hr, hIff.trans ?_⟩
  obtain ⟨hMarked, -⟩ := putAll_label hWords hRoot
  simp only [hMarked, List.mem_map]
  constructor
  · rintro ⟨_, hDiffer, d, hd, rfl⟩
    exact ⟨d, hd, (differIn_map_key 1 hw (hWords d hd)).mp hDiffer⟩
  · rintro ⟨d, hd, hDiffer⟩
    exact ⟨_, (differIn_map_key 1 hw (hWords d hd)).mpr hDiffer, d, hd, rfl⟩

theorem completeAll_eq (hWords : ∀ w ∈ words, ∀ c ∈ w, IsLetter c)
    (hRoot : putAll words (.leaf Label.init) = some root) {w : List Char}
    (hw : ∀ c ∈ w, IsLetter c) :
    ∃ r, completeAll w root = some r ∧ (r = true ↔ BuiltUp words w) := by
  obtain ⟨r, hr, hIff⟩ := completeAll_iff hw root
  refine ⟨r, hr, hIff.trans (forall_congr' fun p => imp_congr_right fun _ =>
    forall_congr' fun hp => ?_)⟩
  obtain ⟨hMarked, -⟩ := putAll_label hWords hRoot
  rw [hMarked, mem_map_key hWords fun c hc => hw c (hp.subset hc)]

/-- For every list of words, each query finds what its description says. -/
theorem dictTrie_queries (words : List (List Char)) (hWords : ∀ w ∈ words, ∀ c ∈ w, IsLetter c) :
    ∃ root, buildDict (.leaf Label.init) words = some root ∧
      (∀ w, (∀ c ∈ w, IsLetter c) →
        ∃ r, magic_search root w = some r ∧ (r = true ↔ ∃ d ∈ words, DifferIn 1 w d)) ∧
      ∃ ans, longestWord (.leaf Label.init) words = some (ans, root) ∧
        IsLongest words words ans := by
  obtain ⟨root, hRoot⟩ : ∃ root, putAll words (.leaf Label.init) = some root :=
    ⟨_, putAll_eq hWords _⟩
  refine ⟨root, hRoot, fun w hw => magic_search_eq hWords hRoot hw, ?_⟩
  obtain ⟨ans, hAns, hLongest⟩ := foldlM_longestWord_round (isLongest_nil words) words
    fun w hw => completeAll_eq hWords hRoot (hWords w hw)
  refine ⟨ans, ?_, hLongest⟩
  have hPut : words.foldlM put (.leaf Label.init) = some root := hRoot
  rw [longestWord, hPut, Option.bind_eq_bind, Option.bind_some]
  exact congrArg (fun best => best.bind fun p => some (p.1, root)) hAns

/-- Words of one length, of which one cannot be built up and two can. -/
theorem dictTrie_queries_five :
    let words := [['b', 'a'], ['a'], ['c', 'b'], ['a', 'b'], ['b']]
    ∃ root, buildDict (.leaf Label.init) words = some root ∧
      magic_search root ['b', 'b'] = some true ∧ magic_search root ['c', 'c', 'b'] = some false ∧
      longestWord (.leaf Label.init) words = some (['a', 'b'], root) := by
  intro words
  have hLetters : ∀ w ∈ words, ∀ c ∈ w, IsLetter c := by simp [words, IsLetter]
  obtain ⟨root, hRoot, hMagic, ans, hAns, hLongest⟩ := dictTrie_queries words hLetters
  refine ⟨root, hRoot, ?_, ?_, ?_⟩
  · obtain ⟨r, hr, hIff⟩ := hMagic ['b', 'b'] (by simp [IsLetter])
    rw [hr, hIff.mpr (by decide)]
  · obtain ⟨r, hr, hIff⟩ := hMagic ['c', 'c', 'b'] (by simp [IsLetter])
    rw [hr, Option.some.injEq, Bool.eq_false_iff]
    exact fun h => absurd (hIff.mp h) (by decide)
  · have hBuilt : BuiltUp words ['a', 'b'] := fun p hSome hp =>
      (by decide : ∀ p ∈ ['a', 'b'].inits, p ≠ [] → p ∈ words) p ((List.mem_inits p _).mpr hp) hSome
    have hCases : ans ∈ [] :: words := by
      rcases hLongest.builtUp with hNone | ⟨hMem, -⟩
      · rw [hNone]
        exact List.mem_cons_self
      · exact List.mem_cons_of_mem _ hMem
    have hEq : ans = ['a', 'b'] :=
      (by decide : ∀ w ∈ [] :: words, 2 < w.length ∨ 2 = w.length ∧ w ≤ ['a', 'b'] → w = ['a', 'b'])
        ans hCases (hLongest.best ['a', 'b'] (by decide) hBuilt)
    rw [hAns, hEq]

end Dictionary

end CppPerf.Tries.DictTrie
