import CppPerf.Sequences.NestedIterator
import CppPerf.Text.Parsing

/-! `MiniParser` of `designIterator.cpp`, which reads a nested list from its text. A stream that
has failed reads nothing more. -/
namespace CppPerf.Text

open CppPerf.Sequences.NestedIterator

/-- What is unread, and the flags of the stream. -/
structure Stringstream where
  rest : List Char
  eof : Bool
  fail : Bool
deriving DecidableEq

namespace Stringstream

def good (iss : Stringstream) : Bool := !iss.eof && !iss.fail

/-- The next character, which is left in the stream. There is none at the end. -/
def peek (iss : Stringstream) : Option Char × Stringstream :=
  if iss.good then
    match iss.rest with
    | [] => (none, { iss with eof := true })
    | c :: _ => (some c, iss)
  else (none, { iss with fail := true })

def ignore (iss : Stringstream) : Stringstream :=
  if iss.good then
    match iss.rest with
    | [] => { iss with eof := true }
    | _ :: rest => { iss with rest }
  else { iss with fail := true }

/-- What a number that cannot be read leaves behind its digits. -/
def behindDigits (str : List Char) : List Char :=
  let rest := str.dropWhile isspace
  let rest := if rest.head? = some '-' ∨ rest.head? = some '+' then rest.tail else rest
  rest.dropWhile Char.isDigit

/-- The value of a number that cannot be read: zero without digits, and otherwise the `int` that is
nearest to it. -/
def refused (str : List Char) : Int :=
  let rest := str.dropWhile isspace
  let negative : Bool := rest.head? = some '-'
  let rest := if rest.head? = some '-' ∨ rest.head? = some '+' then rest.tail else rest
  if rest.takeWhile Char.isDigit = [] then 0 else if negative then -2 ^ 31 else 2 ^ 31 - 1

/-- `iss >> val`. `none` leaves `val` without a value, as a stream that is not good does and one
with nothing but spaces. -/
def extract (iss : Stringstream) : Option (Int × Stringstream) :=
  if iss.good ∧ iss.rest.dropWhile isspace ≠ [] then
    match read_int iss.rest with
    | some (val, rest) => some (val, { rest, eof := rest.isEmpty, fail := false })
    | none =>
        let rest := behindDigits iss.rest
        some (refused iss.rest, { rest, eof := rest.isEmpty, fail := true })
  else none

end Stringstream

namespace MiniParser

/-- A list gets one more element, and an integer becomes a list. -/
def add (ni item : NestedInteger) : NestedInteger :=
  match ni with
  | .integer _ => .list [item]
  | .list l => .list (l ++ [item])

def skipQuote (iss : Stringstream) : Stringstream :=
  let (c, iss) := iss.peek
  if c = some '"' then iss.ignore else iss

/-- The `default` case of the loop. -/
def parseInteger (iss : Stringstream) : Option (NestedInteger × Stringstream) := do
  let (val, iss) ← (skipQuote iss).extract
  return (.integer val, skipQuote iss)

/-- The loop of `parsing`, whose calls of itself start with an empty list. -/
def parsingLoop : (fuel : Nat) → NestedInteger → Stringstream →
    Option (NestedInteger × Stringstream)
  | 0, _, _ => none
  | fuel + 1, ni, iss =>
      if iss.eof then some (ni, iss) else
        let (c, iss) := iss.peek
        if c = some '[' then
          let (c, iss) := iss.ignore.peek
          if c = some ']' then some (ni, iss.ignore)
          else do
            let (item, iss) ← parsingLoop fuel (.list []) iss
            parsingLoop fuel (add ni item) iss
        else if c = some ']' then some (ni, iss.ignore)
        else if c = some ',' then do
          let (item, iss) ← parsingLoop fuel (.list []) iss.ignore
          parsingLoop fuel (add ni item) iss
        else parseInteger iss

/-- Every turn of the loop takes a character, or it is the last one. -/
def deserialize (s : List Char) : Option NestedInteger :=
  (parsingLoop (s.length + 1) (.list []) ⟨s, false, false⟩).map Prod.fst

/-! Every text of a nested integer is read as this nested integer. -/

/-- A quotation mark that may be there. -/
def Quote (w : List Char) : Prop := w = [] ∨ w = ['"']

/-- The texts of a nested integer: spaces may stand in front of a number and quotation marks around
it. -/
inductive Reads : NestedInteger → List Char → Prop where
  | integer {n : Int} {opening spaces closing : List Char} (hFits : fitsInt n = true)
      (hOpening : Quote opening) (hSpaces : ∀ c ∈ spaces, isspace c = true)
      (hClosing : Quote closing) :
      Reads (.integer n) (opening ++ (spaces ++ (to_string n ++ closing)))
  | list (items : List (NestedInteger × List Char)) (hItems : ∀ p ∈ items, Reads p.1 p.2) :
      Reads (.list (items.map Prod.fst)) ('[' :: [','].intercalate (items.map Prod.snd) ++ [']'])

variable {w rest spaces opening closing : List Char} {c : Char} {n : Int} {x : NestedInteger}
  {items : List (NestedInteger × List Char)} {fuel : Nat}

/-- What may stand behind a nested integer. -/
def Behind (rest : List Char) : Prop := ∀ c ∈ rest.head?, c = ',' ∨ c = ']'

theorem peek_cons (c : Char) (w : List Char) :
    Stringstream.peek ⟨c :: w, false, false⟩ = (some c, ⟨c :: w, false, false⟩) := rfl

theorem ignore_cons (c : Char) (w : List Char) :
    Stringstream.ignore ⟨c :: w, false, false⟩ = ⟨w, false, false⟩ := rfl

theorem Behind.not_digit (h : Behind rest) : ∀ c ∈ rest.head?, c.isDigit = false := by
  intro c hc
  rcases h c hc with rfl | rfl <;> rfl

/-- The characters that the loop looks for. -/
def marks : List Char := ['[', ']', ',', '"']

theorem number_cons (hSpaces : ∀ c ∈ spaces, isspace c = true) (n : Int) (w : List Char) :
    ∃ c v, spaces ++ (to_string n ++ w) = c :: v ∧ c ∉ marks := by
  have hMarks : ∀ c ∈ marks, isspace c = false ∧ c.isDigit = false := by simp [marks, isspace]
  cases spaces with
  | cons c spaces =>
      refine ⟨c, _, rfl, fun hMem => ?_⟩
      exact absurd (hSpaces c List.mem_cons_self) (by simp [(hMarks c hMem).1])
  | nil =>
      rw [List.nil_append, to_string]
      split_ifs with hNeg
      · exact ⟨'-', _, rfl, by decide⟩
      · obtain ⟨d, ds, hDigits⟩ := List.exists_cons_of_ne_nil
          (List.ne_nil_of_length_pos (Nat.length_toDigits_pos (b := 10) (n := n.natAbs)))
        have hDigit : d.isDigit = true := isDigit_of_mem_toDigits (hDigits ▸ List.mem_cons_self)
        refine ⟨d, _, by rw [hDigits]; rfl, fun hMem => ?_⟩
        exact absurd hDigit (by simp [(hMarks d hMem).2])

theorem read_int_spaces (hSpaces : ∀ c ∈ spaces, isspace c = true) (w : List Char) :
    read_int (spaces ++ w) = read_int w := by
  rw [read_int, read_int, List.dropWhile_append_of_pos hSpaces]

theorem ne_nil_of_read_int {r : Int × List Char} (h : read_int w = some r) :
    w.dropWhile isspace ≠ [] := by
  intro hNil
  rw [read_int, hNil] at h
  cases h

theorem extract_number (hFits : fitsInt n = true) (hSpaces : ∀ c ∈ spaces, isspace c = true)
    (hRest : ∀ c ∈ rest.head?, c.isDigit = false) :
    Stringstream.extract ⟨spaces ++ (to_string n ++ rest), false, false⟩ =
      some (n, ⟨rest, rest.isEmpty, false⟩) := by
  have hRead : read_int (spaces ++ (to_string n ++ rest)) = some (n, rest) := by
    rw [read_int_spaces hSpaces, read_int_to_string hFits hRest]
  rw [Stringstream.extract, if_pos ⟨rfl, ne_nil_of_read_int hRead⟩]
  simp only [hRead]

theorem skipQuote_opening (hOpening : Quote opening) (hSpaces : ∀ c ∈ spaces, isspace c = true)
    (n : Int) (w : List Char) :
    skipQuote ⟨opening ++ (spaces ++ (to_string n ++ w)), false, false⟩ =
      ⟨spaces ++ (to_string n ++ w), false, false⟩ := by
  rcases hOpening with rfl | rfl
  · obtain ⟨c, v, hCons, hPlain⟩ := number_cons hSpaces n w
    have hQuote : c ≠ '"' := by
      rintro rfl
      exact hPlain (by decide)
    rw [List.nil_append, hCons, skipQuote, peek_cons]
    exact if_neg fun hSame => hQuote (Option.some.inj hSame)
  · rfl

/-- Behind the digits there may be a quotation mark. -/
theorem extract_closing (hFits : fitsInt n = true) (hSpaces : ∀ c ∈ spaces, isspace c = true)
    (hClosing : Quote closing) (hRest : Behind rest) :
    ∃ iss, Stringstream.extract ⟨spaces ++ (to_string n ++ (closing ++ rest)), false, false⟩ =
        some (n, iss) ∧ (rest ≠ [] → skipQuote iss = ⟨rest, false, false⟩) := by
  rcases hClosing with rfl | rfl
  · refine ⟨_, extract_number hFits hSpaces hRest.not_digit, fun hSome => ?_⟩
    obtain ⟨c, w, rfl⟩ := List.exists_cons_of_ne_nil hSome
    rcases hRest c rfl with rfl | rfl <;> rfl
  · refine ⟨_, extract_number hFits hSpaces ?_, fun _ => rfl⟩
    rintro c ⟨⟩
    rfl

theorem parseInteger_spec (hFits : fitsInt n = true) (hOpening : Quote opening)
    (hSpaces : ∀ c ∈ spaces, isspace c = true) (hClosing : Quote closing) (hRest : Behind rest) :
    ∃ s, parseInteger ⟨opening ++ (spaces ++ (to_string n ++ (closing ++ rest))), false, false⟩ =
        some (.integer n, s) ∧ (rest ≠ [] → s = ⟨rest, false, false⟩) := by
  obtain ⟨iss, hExtract, hLeft⟩ := extract_closing hFits hSpaces hClosing hRest
  refine ⟨skipQuote iss, ?_, hLeft⟩
  rw [parseInteger, skipQuote_opening hOpening hSpaces, hExtract]
  rfl

/-- Whatever may stand behind it, the text is read as the nested integer. -/
def Parses (x : NestedInteger) (w : List Char) : Prop :=
  ∀ rest fuel, Behind rest → (w ++ rest).length < fuel →
    ∃ s, parsingLoop fuel (.list []) ⟨w ++ rest, false, false⟩ = some (x, s) ∧
      (rest ≠ [] → s = ⟨rest, false, false⟩)

theorem parses_integer (hFits : fitsInt n = true) (hOpening : Quote opening)
    (hSpaces : ∀ c ∈ spaces, isspace c = true) (hClosing : Quote closing) :
    Parses (.integer n) (opening ++ (spaces ++ (to_string n ++ closing))) := by
  intro rest fuel hRest hFuel
  obtain ⟨s, hParse, hLeft⟩ := parseInteger_spec hFits hOpening hSpaces hClosing hRest
  refine ⟨s, ?_, hLeft⟩
  obtain ⟨fuel, rfl⟩ := Nat.exists_eq_add_of_lt hFuel
  obtain ⟨c, v, hCons, hBracket, hClose, hComma⟩ : ∃ c v,
      opening ++ (spaces ++ (to_string n ++ (closing ++ rest))) = c :: v ∧
        c ≠ '[' ∧ c ≠ ']' ∧ c ≠ ',' := by
    rcases hOpening with rfl | rfl
    · obtain ⟨c, v, hCons, hPlain⟩ := number_cons hSpaces n (closing ++ rest)
      refine ⟨c, v, hCons, ?_, ?_, ?_⟩ <;> rintro rfl <;> exact hPlain (by decide)
    · exact ⟨'"', _, rfl, by decide⟩
  simp only [List.append_assoc]
  rw [hCons] at hParse ⊢
  rw [parsingLoop, if_neg Bool.false_ne_true, peek_cons]
  simp only [Option.some.injEq, hBracket, hClose, hComma, if_false]
  exact hParse

theorem parsingLoop_close (ni : NestedInteger) (w : List Char) :
    parsingLoop (fuel + 1) ni ⟨']' :: w, false, false⟩ = some (ni, ⟨w, false, false⟩) := rfl

theorem parsingLoop_comma {s : Stringstream} {item : NestedInteger} (ni : NestedInteger)
    (hItem : parsingLoop fuel (.list []) ⟨w, false, false⟩ = some (item, s)) :
    parsingLoop (fuel + 1) ni ⟨',' :: w, false, false⟩ = parsingLoop fuel (add ni item) s := by
  have hStep : parsingLoop (fuel + 1) ni ⟨',' :: w, false, false⟩ =
      (parsingLoop fuel (.list []) ⟨w, false, false⟩).bind fun p =>
        parsingLoop fuel (add ni p.1) p.2 := rfl
  rw [hStep, hItem, Option.bind_some]

theorem parsingLoop_open {s : Stringstream} {item : NestedInteger} (ni : NestedInteger)
    (hc : c ≠ ']') (hItem : parsingLoop fuel (.list []) ⟨c :: w, false, false⟩ = some (item, s)) :
    parsingLoop (fuel + 1) ni ⟨'[' :: c :: w, false, false⟩ =
      parsingLoop fuel (add ni item) s := by
  have hStep : parsingLoop (fuel + 1) ni ⟨'[' :: c :: w, false, false⟩ =
      if some c = some ']' then some (ni, ⟨w, false, false⟩)
      else (parsingLoop fuel (.list []) ⟨c :: w, false, false⟩).bind fun p =>
        parsingLoop fuel (add ni p.1) p.2 := rfl
  rw [hStep, if_neg fun hSame => hc (Option.some.inj hSame), hItem, Option.bind_some]

/-- The elements behind the first one, each with a comma in front, up to the end of the list. -/
def following (rest : List Char) : List (NestedInteger × List Char) → List Char
  | [] => ']' :: rest
  | p :: items => ',' :: (p.2 ++ following rest items)

theorem behind_following (rest : List Char) (items : List (NestedInteger × List Char)) :
    Behind (following rest items) := by
  cases items with
  | nil => rintro c ⟨⟩; exact Or.inr rfl
  | cons p items => rintro c ⟨⟩; exact Or.inl rfl

theorem following_ne_nil (rest : List Char) (items : List (NestedInteger × List Char)) :
    following rest items ≠ [] := by
  cases items with
  | nil => exact List.cons_ne_nil _ _
  | cons p items => exact List.cons_ne_nil _ _

theorem intercalate_following (p : NestedInteger × List Char)
    (items : List (NestedInteger × List Char)) (rest : List Char) :
    [','].intercalate ((p :: items).map Prod.snd) ++ ([']'] ++ rest) =
      p.2 ++ following rest items := by
  induction items generalizing p with
  | nil => simp [following]
  | cons q items ih =>
      rw [following, ← ih q]
      simp [List.intercalate]

/-- An element in front of other ones is read, and the loop goes on behind it. -/
theorem Parses.step {p : NestedInteger × List Char} (h : Parses p.1 p.2)
    (hFuel : (p.2 ++ following rest items).length < fuel) :
    parsingLoop fuel (.list []) ⟨p.2 ++ following rest items, false, false⟩ =
      some (p.1, ⟨following rest items, false, false⟩) := by
  obtain ⟨s, hParse, hLeft⟩ := h _ _ (behind_following rest items) hFuel
  rw [hParse, hLeft (following_ne_nil rest items)]

theorem parsingLoop_items (hItems : ∀ p ∈ items, Parses p.1 p.2) (front : List NestedInteger)
    (rest : List Char) (hFuel : (following rest items).length < fuel) :
    parsingLoop fuel (.list front) ⟨following rest items, false, false⟩ =
      some (.list (front ++ items.map Prod.fst), ⟨rest, false, false⟩) := by
  induction items generalizing front fuel with
  | nil =>
      obtain ⟨fuel, rfl⟩ := Nat.exists_eq_add_of_lt hFuel
      rw [List.map_nil, List.append_nil]
      exact parsingLoop_close _ _
  | cons p items ih =>
      obtain ⟨hFirst, hItems⟩ := List.forall_mem_cons.mp hItems
      rw [following, List.length_cons] at hFuel
      obtain ⟨fuel, rfl⟩ : ∃ k, fuel = k + 1 := ⟨fuel - 1, by omega⟩
      have hItem := hFirst.step (Nat.lt_of_succ_lt_succ hFuel)
      rw [List.length_append] at hFuel
      rw [following, parsingLoop_comma _ hItem, add, ih hItems _ (by omega), List.append_assoc,
        List.singleton_append, List.map_cons]

theorem Reads.exists_cons (h : Reads x w) : ∃ c v, w = c :: v ∧ c ≠ ']' := by
  cases h with
  | list items hItems => exact ⟨'[', _, rfl, by decide⟩
  | integer hFits hOpening hSpaces hClosing =>
      rename_i n opening spaces closing
      rcases hOpening with rfl | rfl
      · obtain ⟨c, v, hCons, hPlain⟩ := number_cons hSpaces n closing
        refine ⟨c, v, hCons, ?_⟩
        rintro rfl
        exact hPlain (by decide)
      · exact ⟨'"', _, rfl, by decide⟩

theorem parses_list (hItems : ∀ p ∈ items, Reads p.1 p.2 ∧ Parses p.1 p.2) :
    Parses (.list (items.map Prod.fst))
      ('[' :: [','].intercalate (items.map Prod.snd) ++ [']']) := by
  intro rest fuel hRest hFuel
  refine ⟨⟨rest, false, false⟩, ?_, fun _ => rfl⟩
  cases items with
  | nil =>
      obtain ⟨fuel, rfl⟩ := Nat.exists_eq_add_of_lt hFuel
      rfl
  | cons p items =>
      obtain ⟨⟨hReads, hFirst⟩, hItems⟩ := List.forall_mem_cons.mp hItems
      rw [List.append_assoc, List.cons_append, intercalate_following, List.length_cons] at hFuel
      obtain ⟨fuel, rfl⟩ : ∃ k, fuel = k + 1 := ⟨fuel - 1, by omega⟩
      have hItem := hFirst.step (Nat.lt_of_succ_lt_succ hFuel)
      rw [List.length_append] at hFuel
      obtain ⟨c, v, hCons, hc⟩ := hReads.exists_cons
      rw [List.append_assoc, List.cons_append, intercalate_following]
      rw [hCons, List.cons_append] at hItem ⊢
      rw [parsingLoop_open _ hc hItem, add, List.nil_append,
        parsingLoop_items (fun q hq => (hItems q hq).2) _ _ (by omega), List.map_cons,
        List.singleton_append]

theorem Reads.parses (h : Reads x w) : Parses x w := by
  induction h with
  | integer hFits hOpening hSpaces hClosing =>
      exact parses_integer hFits hOpening hSpaces hClosing
  | list items hItems ih => exact parses_list fun p hp => ⟨hItems p hp, ih p hp⟩

def quoted : List Char := ['[', '"', ' ', '-', '7', '"', ',', '[', ']', ']']

theorem reads_quoted : Reads (.list [.integer (-7), .list []]) quoted := by
  refine Reads.list [(.integer (-7), ['"', ' ', '-', '7', '"']), (.list [], ['[', ']'])] ?_
  rw [List.forall_mem_cons, List.forall_mem_singleton]
  exact ⟨@Reads.integer (-7) ['"'] [' '] ['"'] rfl (Or.inr rfl) (by simp [isspace])
      (Or.inr rfl),
    Reads.list [] nofun⟩

end MiniParser
end CppPerf.Text
