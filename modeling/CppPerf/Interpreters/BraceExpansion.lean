import CppPerf.Semantics.OrderedSet
import CppPerf.Text.IntPosition
import Mathlib.Computability.Language
import Mathlib.Data.Char
import Mathlib.Data.List.Lex

/-! `braceExpansionII` of `brace_expression.cpp`. A set of strings is the list of its
elements in increasing order. -/
namespace CppPerf.Interpreters

open CppPerf.Text Ordered

def dot_product (a b : List (List Char)) : List (List Char) :=
  if a = [] then b else insertAll (a.flatMap fun s1 => b.map fun s2 => s1 ++ s2) []

def special_char (c : Char) : Bool := c = '{' || c = '}' || c = ','

/-- The end of the letters from `last` on. -/
def endOfLetters (expression : List Char) : (fuel : Nat) → (last : Int) → Option Int
  | 0, _ => none
  | fuel + 1, last =>
      match charAt expression last with
      | none => some last
      | some c =>
          if special_char c then some last
          else endOfLetters expression fuel (following last)

/-- A negative count becomes a `size_t` that is greater than every size. -/
def substr (s : List Char) (pos count : Int) : List Char :=
  if 0 ≤ count then (s.drop pos.toNat).take count.toNat else s.drop pos.toNat

/-- The loop from a position, with the set that it has collected. -/
def braceExpansionIIAt (expression : List Char) :
    (fuel : Nat) → (idx : Int) → (group : List (List Char)) → Option (List (List Char) × Int)
  | 0, _, _ => none
  | fuel + 1, idx, group =>
      match charAt expression idx with
      | none => some (group, idx)
      | some c =>
          if c = '{' then do
            let (next_group, idx) ← braceExpansionIIAt expression fuel (following idx) []
            braceExpansionIIAt expression fuel idx (dot_product group next_group)
          else if c = '}' then some (group, following idx)
          else if c = ',' then do
            let (next_group, idx) ← braceExpansionIIAt expression fuel (following idx) []
            some (insertAll next_group group, idx)
          else do
            let last ← endOfLetters expression fuel (following idx)
            let letters := substr expression idx (int (last - idx))
            let group := if 0 < idx ∧ charAt expression (idx - 1) = some '}' then
              dot_product group [letters] else insertElement letters group
            braceExpansionIIAt expression fuel last group

/-- With the position at the end. -/
def braceExpansionII (fuel : Nat) (expression : List Char) : Option (List (List Char) × Int) :=
  braceExpansionIIAt expression fuel 0 []

mutual

inductive Item where
  | letter (c : Char) (isLetter : c.isAlpha = true)
  | braces (alternatives : Alternatives)

/-- A concatenation. -/
inductive Items where
  | nil
  | cons (first : Item) (rest : Items)

/-- At least one alternative, and none of them is empty. -/
inductive Alternatives where
  | last (first : Item) (rest : Items)
  | more (first : Item) (rest : Items) (others : Alternatives)

end

mutual

def Item.text : Item → List Char
  | .letter c _ => [c]
  | .braces alternatives => '{' :: (alternatives.text ++ ['}'])

def Items.text : Items → List Char
  | .nil => []
  | .cons first rest => first.text ++ rest.text

def Alternatives.text : Alternatives → List Char
  | .last first rest => first.text ++ rest.text
  | .more first rest others => first.text ++ rest.text ++ ',' :: others.text

end

mutual

def Item.words : Item → Language Char
  | .letter c _ => {[c]}
  | .braces alternatives => alternatives.words

def Items.words : Items → Language Char
  | .nil => 1
  | .cons first rest => first.words * rest.words

def Alternatives.words : Alternatives → Language Char
  | .last first rest => first.words * rest.words
  | .more first rest others => first.words * rest.words + others.words

end

end CppPerf.Interpreters

/-! The words of an expression, and the set that `braceExpansionII` collects. -/
namespace CppPerf.Interpreters

open CppPerf.Text Ordered

variable {expression front tail letters rest : List Char} {fuel : Nat}
  {group next_group : List (List Char)} {L M : Language Char}

/-- A set of all words of a language, which has some. -/
structure Collected (group : List (List Char)) (L : Language Char) : Prop where
  sorted : group.Pairwise (· < ·)
  ne_nil : group ≠ []
  mem_iff : ∀ w, w ∈ group ↔ w ∈ L

/-- The empty set stands for the empty word in front of everything else. -/
def Stands (group : List (List Char)) (L : Language Char) : Prop :=
  group = [] ∧ L = 1 ∨ Collected group L

section Sets

theorem collected_single (w : List Char) : Collected [w] ({w} : Language Char) where
  sorted := List.pairwise_singleton ..
  ne_nil := List.cons_ne_nil w []
  mem_iff _ := List.mem_singleton

/-- The product of the sets is the concatenation of the languages. -/
theorem Stands.dot_product (h : Stands group L) (hNext : Collected next_group M) :
    Collected (dot_product group next_group) (L * M) := by
  rcases h with ⟨hNil, rfl⟩ | hGroup
  · rw [CppPerf.Interpreters.dot_product, if_pos hNil, one_mul]
    exact hNext
  · rw [CppPerf.Interpreters.dot_product, if_neg hGroup.ne_nil]
    have hMem : ∀ w, w ∈ insertAll (group.flatMap fun s1 => next_group.map fun s2 => s1 ++ s2) [] ↔
        w ∈ L * M := by
      intro w
      rw [mem_insertAll, Language.mem_mul]
      simp [hGroup.mem_iff, hNext.mem_iff]
    refine ⟨sorted_insertAll _ List.Pairwise.nil, fun hNil => ?_, hMem⟩
    obtain ⟨u, hu⟩ := List.exists_mem_of_ne_nil _ hGroup.ne_nil
    obtain ⟨v, hv⟩ := List.exists_mem_of_ne_nil _ hNext.ne_nil
    have hIn := (hMem (u ++ v)).mpr (Language.mem_mul.mpr
      ⟨u, (hGroup.mem_iff u).mp hu, v, (hNext.mem_iff v).mp hv, rfl⟩)
    rw [hNil] at hIn
    cases hIn

theorem Collected.union (h : Collected group L) (hNext : Collected next_group M) :
    Collected (insertAll next_group group) (L + M) := by
  have hMem : ∀ w, w ∈ insertAll next_group group ↔ w ∈ L + M := by
    intro w
    rw [mem_insertAll, hNext.mem_iff, h.mem_iff, Language.mem_add, or_comm]
  refine ⟨sorted_insertAll _ h.sorted, fun hNil => ?_, hMem⟩
  obtain ⟨u, hu⟩ := List.exists_mem_of_ne_nil _ h.ne_nil
  have hIn := (hMem u).mpr (Or.inl ((h.mem_iff u).mp hu))
  rw [hNil] at hIn
  cases hIn

end Sets

section Letters

theorem special_char_of_isAlpha {c : Char} (h : c.isAlpha = true) : special_char c = false := by
  rw [special_char, Bool.or_eq_false_iff, Bool.or_eq_false_iff]
  refine ⟨⟨?_, ?_⟩, ?_⟩ <;> · rw [decide_eq_false_iff_not]; rintro rfl; simp at h

theorem endOfLetters_eq (h : visible expression = front ++ letters ++ rest)
    (hLetters : ∀ c ∈ letters, special_char c = false)
    (hRest : ∀ c, rest.head? = some c → special_char c = true)
    (hFuel : letters.length < fuel) :
    endOfLetters expression fuel (behind front) = some (behind (front ++ letters)) := by
  induction fuel generalizing front letters with
  | zero => omega
  | succ fuel ih =>
      rw [List.append_assoc] at h
      rw [endOfLetters, charAt_behind h]
      cases letters with
      | nil =>
          rw [List.nil_append, List.append_nil]
          cases hHead : rest.head? with
          | none => rfl
          | some c => simp [hRest c hHead]
      | cons c letters =>
          have hShape : visible expression = (front ++ [c]) ++ letters ++ rest := by simp [h]
          have hTail := ih hShape (fun d hd => hLetters d (List.mem_cons_of_mem _ hd))
            (by simpa using hFuel)
          rw [following_behind front c]
          simp [hLetters c List.mem_cons_self, hTail]

/-- The letters are cut out, as long as their end has a position. -/
theorem substr_eq (h : expression = front ++ letters ++ rest)
    (hShort : (front ++ letters).length < 2 ^ 31) :
    substr expression (behind front) (int (behind (front ++ letters) - behind front)) =
      letters := by
  have hFront : front.length < 2 ^ 31 := by
    rw [List.length_append] at hShort
    omega
  have hCount : int (behind (front ++ letters) - behind front) = letters.length := by
    rw [behind_of_lt hShort, behind_of_lt hFront, int, Int.bmod]
    rw [List.length_append] at hShort ⊢
    omega
  rw [hCount, substr, if_pos (Int.natCast_nonneg _), behind_of_lt hFront, Int.toNat_natCast,
    Int.toNat_natCast, h, List.append_assoc, List.drop_left, List.take_left]

end Letters

/-- The first letters of a concatenation, and what comes behind them. -/
inductive LettersThen : Items → List Char → Items → Prop where
  | nil : LettersThen .nil [] .nil
  | braces (a : Alternatives) (rest : Items) :
      LettersThen (.cons (.braces a) rest) [] (.cons (.braces a) rest)
  | letter {c : Char} (h : c.isAlpha = true) {rest others : Items} {letters : List Char}
      (hRest : LettersThen rest letters others) :
      LettersThen (.cons (.letter c h) rest) (c :: letters) others

namespace LettersThen

theorem exists_of (items : Items) : ∃ letters others, LettersThen items letters others :=
  match items with
  | .nil => ⟨_, _, nil⟩
  | .cons (.braces a) rest => ⟨_, _, braces a rest⟩
  | .cons (.letter _ h) rest =>
      have ⟨_, _, hRest⟩ := exists_of rest
      ⟨_, _, letter h hRest⟩

variable {items others : Items} (h : LettersThen items letters others)

include h

theorem text_eq : items.text = letters ++ others.text := by
  induction h with
  | nil => rfl
  | braces a rest => rfl
  | letter h hRest ih => simp [Items.text, Item.text, ih]

theorem isAlpha : ∀ c ∈ letters, c.isAlpha = true := by
  induction h with
  | nil => simp
  | braces a rest => simp
  | letter hc hRest ih => simpa [hc] using ih

theorem words_eq : items.words = {letters} * others.words := by
  induction h with
  | nil => exact (one_mul _).symm
  | braces a rest => exact (one_mul _).symm
  | @letter c hc rest others letters hRest ih =>
      have hSplit : ({c :: letters} : Language Char) = {[c]} * {letters} := by
        ext w
        rw [Language.mem_mul]
        constructor
        · rintro rfl
          exact ⟨[c], rfl, letters, rfl, rfl⟩
        · rintro ⟨u, rfl, v, rfl, rfl⟩
          rfl
      rw [Items.words, Item.words, ih, hSplit, mul_assoc]

/-- Behind the letters there are braces, or nothing. -/
theorem others_eq : others = .nil ∨ ∃ a rest, others = .cons (.braces a) rest := by
  induction h with
  | nil => exact Or.inl rfl
  | braces a rest => exact Or.inr ⟨a, rest, rfl⟩
  | letter hc hRest ih => exact ih

theorem not_letter (c : Char) (hc : c.isAlpha = true) (rest : Items) :
    others ≠ .cons (.letter c hc) rest := by
  rcases h.others_eq with hNil | ⟨a, rest', hBraces⟩
  · simp [hNil]
  · simp [hBraces]

end LettersThen

/-- What ends a concatenation. -/
inductive Stop where
  | close
  | others (alternatives : Alternatives)
  | eof

def Stop.text : Stop → List Char
  | .close => ['}']
  | .others alternatives => ',' :: (alternatives.text ++ ['}'])
  | .eof => []

def Stop.words : Stop → Language Char
  | .close => 0
  | .others alternatives => alternatives.words
  | .eof => 0

/-- The first alternative, and how it ends. -/
def Alternatives.split : Alternatives → Item × Items × Stop
  | .last first rest => (first, rest, .close)
  | .more first rest others => (first, rest, .others others)

theorem Alternatives.text_split (a : Alternatives) :
    a.text ++ ['}'] = (Items.cons a.split.1 a.split.2.1).text ++ a.split.2.2.text := by
  cases a <;> simp [Alternatives.text, Alternatives.split, Items.text, Stop.text]

theorem Alternatives.words_split (a : Alternatives) :
    a.words = (Items.cons a.split.1 a.split.2.1).words + a.split.2.2.words := by
  cases a <;> simp [Alternatives.words, Alternatives.split, Items.words, Stop.words]

theorem Alternatives.split_ne_eof (a : Alternatives) : a.split.2.2 ≠ .eof := by
  cases a <;> simp [Alternatives.split]

section Steps

variable {idx : Int} {result : List (List Char) × Int}

theorem expand_end (h : visible expression = front) :
    braceExpansionIIAt expression (fuel + 1) (behind front) group = some (group, behind front) := by
  have hText : visible expression = front ++ [] := by rw [List.append_nil, h]
  rw [braceExpansionIIAt, charAt_behind hText]
  rfl

theorem expand_close (h : visible expression = front ++ '}' :: rest) :
    braceExpansionIIAt expression (fuel + 1) (behind front) group =
      some (group, behind (front ++ ['}'])) := by
  rw [braceExpansionIIAt, charAt_behind h, following_behind front '}']
  rfl

theorem expand_comma (h : visible expression = front ++ ',' :: rest)
    (hInner : braceExpansionIIAt expression fuel (behind (front ++ [','])) [] =
      some (next_group, idx)) :
    braceExpansionIIAt expression (fuel + 1) (behind front) group =
      some (insertAll next_group group, idx) := by
  rw [braceExpansionIIAt, charAt_behind h, following_behind front ',']
  simp [hInner]

theorem expand_open (h : visible expression = front ++ '{' :: rest)
    (hInner : braceExpansionIIAt expression fuel (behind (front ++ ['{'])) [] =
      some (next_group, idx))
    (hRest : braceExpansionIIAt expression fuel idx (dot_product group next_group) =
      some result) :
    braceExpansionIIAt expression (fuel + 1) (behind front) group = some result := by
  rw [braceExpansionIIAt, charAt_behind h, following_behind front '{']
  simp [hInner, hRest]

/-- The character in front of a position. -/
theorem charAt_before (h : expression = front ++ rest) (hShort : front.length < 2 ^ 31) (c : Char) :
    (0 < behind front ∧ charAt expression (behind front - 1) = some c) ↔
      front.getLast? = some c := by
  rw [behind_of_lt hShort]
  rcases List.eq_nil_or_concat' front with rfl | ⟨start, last, rfl⟩
  · simp
  · have hPos : ((start ++ [last]).length : Int) - 1 = start.length := by simp
    rw [hPos, charAt, if_pos (Int.natCast_nonneg _), Int.toNat_natCast, h, List.append_assoc,
      List.getElem?_append_right (Nat.le_refl _)]
    simp

theorem expand_letter {c : Char} (hChar : charAt expression idx = some c)
    (hNot : special_char c = false) :
    braceExpansionIIAt expression (fuel + 1) idx group =
      (endOfLetters expression fuel (following idx)).bind fun last =>
        braceExpansionIIAt expression fuel last
          (if 0 < idx ∧ charAt expression (idx - 1) = some '}' then
            dot_product group [substr expression idx (int (last - idx))]
          else insertElement (substr expression idx (int (last - idx))) group) := by
  simp only [special_char, Bool.or_eq_false_iff, decide_eq_false_iff_not] at hNot
  rw [braceExpansionIIAt, hChar]
  simp only [if_neg hNot.1.1, if_neg hNot.1.2, if_neg hNot.2]
  rfl

/-- Letters behind a brace, or in front of everything else. -/
theorem expand_letters {c : Char} (hShort : expression.length < 2 ^ 31)
    (hText : expression = front ++ (c :: letters) ++ rest)
    (hLetters : ∀ d ∈ c :: letters, d.isAlpha = true)
    (hHead : ∀ d, rest.head? = some d → special_char d = true)
    (hFuel : letters.length < fuel) (hStart : group = [] ∨ front.getLast? = some '}')
    (hRest : braceExpansionIIAt expression fuel (behind (front ++ (c :: letters)))
      (dot_product group [c :: letters]) = some result) :
    braceExpansionIIAt expression (fuel + 1) (behind front) group = some result := by
  have hVisible := visible_of_length_lt hShort
  have hLength := congrArg List.length hText
  simp only [List.length_append, List.length_cons] at hLength
  have hChar : visible expression = front ++ c :: (letters ++ rest) := by
    rw [hVisible, hText]
    simp
  have hWord : visible expression = front ++ [c] ++ letters ++ rest := by
    rw [hVisible, hText]
    simp
  have hNot := special_char_of_isAlpha (hLetters c List.mem_cons_self)
  have hEnd := endOfLetters_eq hWord (fun d hd => special_char_of_isAlpha
    (hLetters d (List.mem_cons_of_mem _ hd))) hHead hFuel
  have hSubstr := substr_eq hText (by simp; omega)
  have hShape : front ++ [c] ++ letters = front ++ (c :: letters) := by simp
  rw [hShape] at hEnd
  have hFront : expression = front ++ (c :: letters ++ rest) := by
    rw [hText]
    simp
  have hBefore := charAt_before hFront (by omega) '}'
  have hGroup : (if 0 < behind front ∧ charAt expression (behind front - 1) = some '}' then
      dot_product group [c :: letters] else insertElement (c :: letters) group) =
      dot_product group [c :: letters] := by
    split_ifs with hLast
    · rfl
    · rw [hStart.resolve_right fun h => hLast (hBefore.mpr h)]
      rfl
  rw [expand_letter (charAt_behind hChar) hNot, following_behind front c, hEnd, Option.bind_some,
    hSubstr, hGroup]
  exact hRest

end Steps

/-- What stops the letters. -/
theorem head_special {items : Items}
    (hOthers : items = .nil ∨ ∃ a rest, items = .cons (.braces a) rest) {stop : Stop}
    (hEof : stop = .eof → tail = []) :
    ∀ d, (items.text ++ stop.text ++ tail).head? = some d → special_char d = true := by
  rcases hOthers with rfl | ⟨a, rest, rfl⟩
  · cases stop with
    | close => simp [Items.text, Stop.text, special_char]
    | others a => simp [Items.text, Stop.text, special_char]
    | eof => simp [Items.text, Stop.text, hEof rfl]
  · simp [Items.text, Item.text, special_char]

/-- In front of a concatenation, with what the loop has collected. A letter comes first, or behind
a closing brace. -/
structure Ready (expression front tail : List Char) (group : List (List Char))
    (L : Language Char) (items : Items) (stop : Stop) : Prop where
  text_eq : expression = front ++ (items.text ++ stop.text) ++ tail
  at_eof : stop = .eof → tail = []
  stands : Stands group L
  start : group ≠ [] ∨ items ≠ .nil
  letter : ∀ c hc rest, items = .cons (.letter c hc) rest → group = [] ∨ front.getLast? = some '}'

/-- The words of the concatenation and of what ends it, and the position behind both. -/
def Reads (expression : List Char) (fuel : Nat) (front : List Char) (group : List (List Char))
    (L : Language Char) (items : Items) (stop : Stop) : Prop :=
  ∃ result, braceExpansionIIAt expression fuel (behind front) group =
      some (result, behind (front ++ (items.text ++ stop.text))) ∧
    Collected result (L * items.words + stop.words)

/-- So much fuel is enough for every shorter rest of the string. -/
def Expands (expression : List Char) (fuel : Nat) : Prop :=
  ∀ front tail group L items stop, Ready expression front tail group L items stop →
    (items.text ++ stop.text).length < fuel → Reads expression fuel front group L items stop

section Cases

variable {items : Items} {stop : Stop} (hExpands : Expands expression fuel)
include hExpands

/-- The call behind an opening brace or a comma reads all alternatives. -/
theorem Expands.read_alternatives (a : Alternatives)
    (hText : expression = front ++ (a.text ++ ['}']) ++ tail)
    (hFuel : (a.text ++ ['}']).length < fuel) :
    ∃ result, braceExpansionIIAt expression fuel (behind front) [] =
      some (result, behind (front ++ (a.text ++ ['}']))) ∧ Collected result a.words := by
  rw [a.text_split] at hText hFuel ⊢
  rw [a.words_split]
  have hReady : Ready expression front tail [] 1 (.cons a.split.1 a.split.2.1) a.split.2.2 :=
    ⟨hText, fun hEq => absurd hEq a.split_ne_eof, Or.inl ⟨rfl, rfl⟩, Or.inr (by simp),
      fun _ _ _ _ => Or.inl rfl⟩
  obtain ⟨result, hRun, hWords⟩ := hExpands _ _ _ _ _ _ hReady hFuel
  rw [one_mul] at hWords
  exact ⟨result, hRun, hWords⟩

/-- At the end of the concatenation. -/
theorem Expands.read_nil (hShort : expression.length < 2 ^ 31)
    (h : Ready expression front tail group L .nil stop)
    (hFuel : (Items.nil.text ++ stop.text).length < fuel + 1) :
    Reads expression (fuel + 1) front group L .nil stop := by
  have hVisible := visible_of_length_lt hShort
  have hText := h.text_eq
  have hCollected : Collected group L := by
    rcases h.stands with ⟨hNil, -⟩ | hGroup
    · exact absurd hNil (h.start.resolve_right (not_not.mpr rfl))
    · exact hGroup
  rw [Reads, Items.words, mul_one]
  simp only [Items.text, List.nil_append] at hText hFuel ⊢
  cases stop with
  | close =>
      have hHere : visible expression = front ++ '}' :: tail := by
        rw [hVisible, hText]
        simp [Stop.text]
      refine ⟨group, expand_close hHere, ?_⟩
      rwa [Stop.words, add_zero]
  | others a =>
      have hNext : expression = (front ++ [',']) ++ (a.text ++ ['}']) ++ tail := by
        rw [hText]
        simp [Stop.text]
      have hHere : visible expression = front ++ ',' :: (a.text ++ ['}'] ++ tail) := by
        rw [hVisible, hText]
        simp [Stop.text]
      have hShorter : (a.text ++ ['}']).length < fuel := by
        simp only [Stop.text, List.length_cons] at hFuel
        omega
      obtain ⟨result, hRun, hWords⟩ := hExpands.read_alternatives a hNext hShorter
      refine ⟨_, (expand_comma hHere hRun).trans ?_, hCollected.union hWords⟩
      simp [Stop.text]
  | eof =>
      have hHere : visible expression = front := by
        rw [hVisible, hText, h.at_eof rfl]
        simp [Stop.text]
      refine ⟨group, (expand_end hHere).trans ?_, ?_⟩
      · simp [Stop.text]
      · rwa [Stop.words, add_zero]

/-- Letters are read at once, up to the next brace or the end. -/
theorem Expands.read_letters (hShort : expression.length < 2 ^ 31) {c : Char}
    {hc : c.isAlpha = true} {rest : Items} (h : Ready expression front tail group L (.cons (.letter c hc) rest) stop)
    (hFuel : ((Items.cons (.letter c hc) rest).text ++ stop.text).length < fuel + 1) :
    Reads expression (fuel + 1) front group L (.cons (.letter c hc) rest) stop := by
  obtain ⟨letters, others, hRest⟩ := LettersThen.exists_of rest
  have hWord := LettersThen.letter hc hRest
  have hText := h.text_eq
  rw [Reads]
  rw [hWord.text_eq] at hText hFuel ⊢
  have hHere : expression = front ++ (c :: letters) ++ (others.text ++ stop.text ++ tail) := by
    rw [hText]
    simp
  have hNext : expression = (front ++ (c :: letters)) ++ (others.text ++ stop.text) ++ tail := by
    rw [hText]
    simp
  simp only [List.length_append, List.length_cons] at hFuel
  have hShorter : (others.text ++ stop.text).length < fuel := by
    rw [List.length_append]
    omega
  have hProduct := h.stands.dot_product (collected_single (c :: letters))
  obtain ⟨result, hRun, hWords⟩ := hExpands _ _ _ _ _ _ ⟨hNext, h.at_eof, Or.inr hProduct,
    Or.inl hProduct.ne_nil, fun d hd others' hEq => absurd hEq (hWord.not_letter d hd others')⟩
    hShorter
  have hStep := expand_letters hShort hHere hWord.isAlpha (head_special hWord.others_eq h.at_eof)
    (by omega) (h.letter c hc rest rfl) hRun
  refine ⟨result, hStep.trans ?_, ?_⟩
  · simp
  · rwa [hWord.words_eq, ← mul_assoc]

/-- Braces are read by a call, and their words are joined to those in front. -/
theorem Expands.read_braces (hShort : expression.length < 2 ^ 31) {a : Alternatives} {rest : Items}
    (h : Ready expression front tail group L (.cons (.braces a) rest) stop)
    (hFuel : ((Items.cons (.braces a) rest).text ++ stop.text).length < fuel + 1) :
    Reads expression (fuel + 1) front group L (.cons (.braces a) rest) stop := by
  have hText := h.text_eq
  have hHere : visible expression =
      front ++ '{' :: ((a.text ++ ['}']) ++ (rest.text ++ stop.text ++ tail)) := by
    rw [visible_of_length_lt hShort, hText]
    simp [Items.text, Item.text]
  have hCall : expression =
      (front ++ ['{']) ++ (a.text ++ ['}']) ++ (rest.text ++ stop.text ++ tail) := by
    rw [hText]
    simp [Items.text, Item.text]
  have hNext : expression =
      (front ++ ['{'] ++ (a.text ++ ['}'])) ++ (rest.text ++ stop.text) ++ tail := by
    rw [hText]
    simp [Items.text, Item.text]
  have hLast : (front ++ ['{'] ++ (a.text ++ ['}'])).getLast? = some '}' := by
    rw [← List.append_assoc, List.getLast?_concat]
  simp only [Items.text, Item.text, List.length_append, List.length_cons, List.length_nil] at hFuel
  obtain ⟨next_group, hInner, hAll⟩ := hExpands.read_alternatives a hCall (by simp; omega)
  have hProduct := h.stands.dot_product hAll
  obtain ⟨result, hRun, hWords⟩ := hExpands _ _ _ _ _ _ ⟨hNext, h.at_eof, Or.inr hProduct,
    Or.inl hProduct.ne_nil, fun _ _ _ _ => Or.inr hLast⟩ (by simp; omega)
  refine ⟨result, (expand_open hHere hInner hRun).trans ?_, ?_⟩
  · simp [Items.text, Item.text]
  · rwa [Items.words, Item.words, ← mul_assoc]

end Cases

/-- The loop reads a concatenation up to where it ends, and the other alternatives with it. -/
theorem expands (hShort : expression.length < 2 ^ 31) (fuel : Nat) : Expands expression fuel := by
  induction fuel with
  | zero =>
      intro front tail group L items stop _ hFuel
      omega
  | succ fuel ih =>
      intro front tail group L items stop h hFuel
      cases items with
      | nil => exact ih.read_nil hShort h hFuel
      | cons first rest =>
          cases first with
          | letter c hc => exact ih.read_letters hShort h hFuel
          | braces a => exact ih.read_braces hShort h hFuel

/-- In a string of fewer than `2 ^ 31` characters: the words of an expression in increasing
order, and the position at its end. -/
theorem braceExpansionII_eq (first : Item) (rest : Items)
    (hShort : (Items.cons first rest).text.length < 2 ^ 31) (extra : Nat) :
    ∃ words : List (List Char),
      braceExpansionII ((Items.cons first rest).text.length + 1 + extra)
        (Items.cons first rest).text = some (words, ((Items.cons first rest).text.length : Int)) ∧
      words.Pairwise (· < ·) ∧ ∀ w, w ∈ words ↔ w ∈ (Items.cons first rest).words := by
  have hText : (Items.cons first rest).text =
      [] ++ ((Items.cons first rest).text ++ Stop.eof.text) ++ [] := by
    simp [Stop.text]
  have hFuel : ((Items.cons first rest).text ++ Stop.eof.text).length <
      (Items.cons first rest).text.length + 1 + extra := by
    simp [Stop.text]
    omega
  have hReady : Ready (Items.cons first rest).text [] [] [] 1 (.cons first rest) .eof :=
    ⟨hText, fun _ => rfl, Or.inl ⟨rfl, rfl⟩, Or.inr (by simp), fun _ _ _ _ => Or.inl rfl⟩
  obtain ⟨words, hRun, hWords⟩ := expands hShort _ _ _ _ _ _ _ hReady hFuel
  have hEnd : behind ([] ++ ((Items.cons first rest).text ++ Stop.eof.text)) =
      (Items.cons first rest).text.length := by
    rw [List.nil_append, Stop.text, List.append_nil, behind_of_lt hShort]
  rw [hEnd] at hRun
  refine ⟨words, hRun, hWords.sorted, fun w => ?_⟩
  rw [hWords.mem_iff, one_mul, Stop.words, add_zero]

theorem braceExpansionII_eq_product :
    ∃ words : List (List Char),
      braceExpansionII 9 ['{', 'b', ',', 'a', '}', 'c', 'd', 'e'] = some (words, 8) ∧
      words.Pairwise (· < ·) ∧ ∀ w, w ∈ words ↔ w ∈ (Items.cons
        (.braces (.more (.letter 'b' rfl) .nil (.last (.letter 'a' rfl) .nil)))
        (.cons (.letter 'c' rfl) (.cons (.letter 'd' rfl) (.cons (.letter 'e' rfl) .nil)))).words :=
  braceExpansionII_eq (.braces (.more (.letter 'b' rfl) .nil (.last (.letter 'a' rfl) .nil)))
    (.cons (.letter 'c' rfl) (.cons (.letter 'd' rfl) (.cons (.letter 'e' rfl) .nil)))
    (by decide) 0

section Long

def letters_a : Nat → Items
  | 0 => .nil
  | n + 1 => .cons (.letter 'a' rfl) (letters_a n)

theorem text_letters_a (n : Nat) : (letters_a n).text = List.replicate n 'a' := by
  induction n with
  | zero => rfl
  | succ n ih =>
      rw [letters_a, Items.text, ih]
      rfl

/-- Two alternatives, many times `a` and then `b`. -/
def longBraces (n : Nat) : Item :=
  .braces (.more (.letter 'a' rfl) (letters_a n) (.last (.letter 'b' rfl) .nil))

/-- When an `int` ends just in front of the comma, the other word is not seen. -/
theorem braceExpansionII_longBraces {n : Nat} (hn : n + 2 = 2 ^ 31) (fuel : Nat) :
    braceExpansionII (n + fuel + 3) (Items.cons (longBraces n) .nil).text =
      some ([List.replicate (n + 1) 'a'], -2 ^ 31) := by
  have hText : (Items.cons (longBraces n) .nil).text =
      ('{' :: List.replicate (n + 1) 'a') ++ [',', 'b', '}'] := by
    simp [Items.text, longBraces, Item.text, Alternatives.text, text_letters_a,
      List.replicate_succ]
  have hLength : ('{' :: List.replicate (n + 1) 'a').length = 2 ^ 31 := by
    rw [List.length_cons, List.length_replicate, hn]
  have hVisible : visible (Items.cons (longBraces n) .nil).text =
      ['{'] ++ ['a'] ++ List.replicate n 'a' ++ [] := by
    rw [hText, visible, List.take_left' hLength]
    simp [List.replicate_succ]
  generalize (Items.cons (longBraces n) .nil).text = expression at hText hVisible
  have hOpen : visible expression = [] ++ '{' :: List.replicate (n + 1) 'a' := by
    rw [hVisible]
    simp [List.replicate_succ]
  have hFirst : visible expression = ['{'] ++ 'a' :: List.replicate n 'a' := by
    rw [hVisible]
    simp
  have hAll : ['{'] ++ ['a'] ++ List.replicate n 'a' = '{' :: List.replicate (n + 1) 'a' := by
    simp [List.replicate_succ]
  have hLast : behind ('{' :: List.replicate (n + 1) 'a') = -2 ^ 31 := by
    rw [behind, hLength]
    decide
  have hCut : substr expression (behind ['{']) (int (-2 ^ 31 - behind ['{'])) =
      List.replicate (n + 1) 'a' := by
    have hCount : int (-2 ^ 31 - behind ['{']) = ((n + 1 : Nat) : Int) := by
      have hOne : behind ['{'] = 1 := by decide
      rw [hOne, int, Int.bmod]
      omega
    have hOne : (behind ['{']).toNat = 1 := by decide
    rw [hCount, substr, if_pos (Int.natCast_nonneg _), hOne, hText, Int.toNat_natCast]
    simp
  have hEnd := endOfLetters_eq hVisible (fun c hc => by rw [List.eq_of_mem_replicate hc]; rfl)
    (by simp) (show (List.replicate n 'a').length < n + fuel + 1 by
      rw [List.length_replicate]
      omega)
  rw [hAll, hLast] at hEnd
  have hStop : ∀ fuel group, braceExpansionIIAt expression (fuel + 1) (-2 ^ 31) group =
      some (group, -2 ^ 31) := by
    intro fuel group
    rw [← hLast]
    exact expand_end (by rw [hVisible, List.append_nil, hAll])
  have hInner : braceExpansionIIAt expression (n + fuel + 2) (behind ([] ++ ['{'])) [] =
      some ([List.replicate (n + 1) 'a'], -2 ^ 31) := by
    rw [List.nil_append, expand_letter (charAt_behind hFirst) (by decide), following_behind,
      hEnd, Option.bind_some, hCut, hStop]
    split_ifs <;> rfl
  rw [braceExpansionII, ← behind_nil]
  exact expand_open hOpen hInner (hStop (n + fuel + 1) _)

/-- In a longer string a word may be out of reach. -/
theorem not_braceExpansionII_eq :
    ¬∀ (first : Item) (rest : Items) (extra : Nat), ∃ words : List (List Char),
      braceExpansionII ((Items.cons first rest).text.length + 1 + extra)
        (Items.cons first rest).text = some (words, ((Items.cons first rest).text.length : Int)) ∧
      words.Pairwise (· < ·) ∧ ∀ w, w ∈ words ↔ w ∈ (Items.cons first rest).words := by
  intro h
  obtain ⟨n, hn⟩ : ∃ n, n + 2 = 2 ^ 31 := ⟨2 ^ 31 - 2, by decide⟩
  obtain ⟨words, hRun, -, hMem⟩ := h (longBraces n) .nil 0
  have hFuel : (Items.cons (longBraces n) .nil).text.length + 1 + 0 = n + 3 + 3 := by
    simp [Items.text, longBraces, Item.text, Alternatives.text, text_letters_a]
  rw [hFuel, braceExpansionII_longBraces hn] at hRun
  have hb : ['b'] ∈ (Items.cons (longBraces n) .nil).words := by
    simp only [Items.words, mul_one]
    exact Or.inr (by simp only [Alternatives.words, Items.words, Item.words, mul_one]; rfl)
  have hIn := (hMem ['b']).mpr hb
  rw [← (Prod.mk.inj (Option.some.inj hRun)).1] at hIn
  simp [List.replicate_succ] at hIn

end Long

end CppPerf.Interpreters
