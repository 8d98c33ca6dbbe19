import CppPerf.Semantics.CharBuffer

/-! `GetToken` of `hashTableFileRead.h` and the loop of `ReadtoHashTable` over a line. A
pointer into the line is an index, and reading outside of the line fails. -/
namespace CppPerf.Text

open CharBuffer

def isBlank (c : Char) : Bool := c = ' ' || c = '\t'

/-- The loop that trims leading whitespace. The first argument is what is left of the line. -/
def skipBlanks (buf : List Char) : (left pStart : Nat) → Option Nat
  | 0, _ => none
  | left + 1, pStart => do
      let c ← buf[pStart]?
      if isBlank c then skipBlanks buf left (pStart + 1) else some pStart

/-- The main loop. The result says whether it stops at the end of a token or of the line. -/
def findEnd (delim : Char) (bEndQuotes : Bool) (buf : List Char) :
    (left pCur : Nat) → Option (Nat × Bool)
  | 0, _ => none
  | left + 1, pCur => do
      let c ← buf[pCur]?
      if c = nul then some (pCur, false)
      else if bEndQuotes then
        if c = '"' then do
          let following ← buf[pCur + 1]?
          if following = delim then some (pCur, true)
          else findEnd delim bEndQuotes buf left (pCur + 1)
        else findEnd delim bEndQuotes buf left (pCur + 1)
      else if c = delim then some (pCur, true)
      else findEnd delim bEndQuotes buf left (pCur + 1)

/-- The loop that eats trailing whitespace. It may read before the line. -/
def eatBlanks : (pCur : Nat) → (buf : List Char) → Option (Nat × List Char)
  | 0, _ => none
  | pCur + 1, buf => do
      let c ← buf[pCur]?
      if isBlank c then eatBlanks pCur (buf.set pCur nul) else some (pCur + 1, buf)

/-- The token, where the next one begins, and the line with the terminators so far. -/
structure Token where
  pStart : Nat
  pNext : Nat
  line : List Char
deriving DecidableEq

def GetToken (buf : List Char) (pCur : Nat) (delim : Char) (bIsXCL : Bool) : Option Token := do
  let pStart ← (if bIsXCL then skipBlanks buf (buf.length - pCur) pCur else some pCur)
  let first ← buf[pStart]?
  let bEndQuotes : Bool := first = '"'
  let (pCur, ends) ← findEnd delim bEndQuotes buf (buf.length - pStart) pStart
  if ends then
    if bEndQuotes then
      -- what is in front of the delimiter is the closing quote
      if bIsXCL then some ⟨pStart + 1, pCur + 2, buf.set pCur nul⟩
      else some ⟨pStart, pCur + 2, buf.set (pCur + 1) nul⟩
    else some ⟨pStart, pCur + 1, buf.set pCur nul⟩
  else if bIsXCL then do
    let (pCur, buf) ← eatBlanks pCur buf
    if bEndQuotes then some ⟨pStart + 1, pCur - 1, buf.set (pCur - 1) nul⟩
    else some ⟨pStart, pCur, buf⟩
  else some ⟨pStart, pCur, buf⟩

/-- The loop of `ReadtoHashTable`, which stops when there is no room left in `szElem`. -/
def eachToken (delim : Char) (bIsXCL : Bool) :
    (room : Nat) → (buf : List Char) → (pCur : Nat) → Option (List Nat × List Char)
  | 0, buf, pCur => do
      let _ ← buf[pCur]?
      some ([], buf)
  | room + 1, buf, pCur => do
      let c ← buf[pCur]?
      if c = nul then some ([], buf)
      else do
        let token ← GetToken buf pCur delim bIsXCL
        let (szElem, buf) ← eachToken delim bIsXCL room token.line token.pNext
        some (token.pStart :: szElem, buf)

/-- The strings of `szElem` behind the loop, for an array of a size that is not 0. -/
def elements (size : Nat) (buf : List Char) (delim : Char) (bIsXCL : Bool) :
    Option (List (List Char)) := do
  let token ← GetToken buf 0 delim bIsXCL
  let (szElem, buf) ← eachToken delim bIsXCL (size - 1) token.line token.pNext
  (token.pStart :: szElem).mapM fun pStart => stringAt pStart buf

end CppPerf.Text

/-! A line of fields, some of them between quotes, comes back from `GetToken`, unless a
quoted field begins with the delimiter. -/
namespace CppPerf.Text

open CharBuffer

/-- A character that can separate fields. -/
structure Delimiter (delim : Char) : Prop where
  ne_quote : delim ≠ '"'
  ne_nul : delim ≠ nul
  not_blank : isBlank delim = false

/-- A field with the way that it is written. -/
structure Field (delim : Char) where
  value : List Char
  quoted : Bool
  no_quote : '"' ∉ value
  no_nul : nul ∉ value
  begins : ∀ c ∈ value.head?, isBlank c = false
  ends : ∀ c ∈ value.getLast?, isBlank c = false
  bare : quoted = false → value ≠ [] ∧ delim ∉ value

def Field.text {delim : Char} (f : Field delim) : List Char :=
  if f.quoted then '"' :: (f.value ++ ['"']) else f.value

/-- The line of the fields. -/
def lineOf {delim : Char} (fields : List (Field delim)) : List Char :=
  [delim].intercalate (fields.map Field.text) ++ [nul]

section Scan

variable {delim c : Char} {q : Bool} (front rest : List Char)

theorem getElem?_front : (front ++ c :: rest)[front.length]? = some c := by
  simp

theorem set_front (d : Char) : (front ++ c :: rest).set front.length d = front ++ d :: rest := by
  simp

theorem findEnd_cons {next : Char} (hNul : c ≠ nul)
    (hGo : if q then c = '"' → next ≠ delim else c ≠ delim) :
    findEnd delim q (front ++ c :: next :: rest) (c :: next :: rest).length front.length =
      findEnd delim q ((front ++ [c]) ++ next :: rest) (next :: rest).length
        (front ++ [c]).length := by
  have hNext : (front ++ c :: next :: rest)[front.length + 1]? = some next := by simp
  rw [List.length_cons, findEnd, getElem?_front, hNext, List.append_assoc, List.length_append]
  cases q with
  | false =>
      simp only [Option.bind_eq_bind, Option.bind_some, if_neg hNul, Bool.false_eq_true, if_false]
      exact if_neg (by simpa using hGo)
  | true =>
      simp only [Option.bind_eq_bind, Option.bind_some, if_neg hNul, if_true]
      by_cases hQuote : c = '"'
      · rw [if_pos hQuote, if_neg (by simpa [hQuote] using hGo)]
        rfl
      · rw [if_neg hQuote]
        rfl

theorem findEnd_skip {piece : List Char} {next : Char}
    (hPiece : ∀ x ∈ piece, x ≠ nul ∧ if q then x ≠ '"' else x ≠ delim) :
    findEnd delim q (front ++ (piece ++ next :: rest)) (piece ++ next :: rest).length front.length =
      findEnd delim q ((front ++ piece) ++ next :: rest) (next :: rest).length
        (front ++ piece).length := by
  induction piece generalizing front with
  | nil => rw [List.append_nil, List.nil_append]
  | cons x piece ih =>
      obtain ⟨⟨hNul, hGo⟩, hRest⟩ := List.forall_mem_cons.mp hPiece
      obtain ⟨y, behind, hBehind⟩ : ∃ y behind, piece ++ next :: rest = y :: behind :=
        List.exists_cons_of_ne_nil (by simp)
      have hFirst := @findEnd_cons delim x q front behind y hNul (by
        cases q with
        | false => exact hGo
        | true => exact fun hQuote => absurd hQuote hGo)
      rw [← hBehind] at hFirst
      rw [List.cons_append, hFirst, ih (front ++ [x]) hRest, List.append_assoc front,
        List.singleton_append]

/-- A token without quotes ends at the delimiter. -/
theorem findEnd_bare {piece : List Char} (hDelim : delim ≠ nul)
    (hPiece : ∀ x ∈ piece, x ≠ nul ∧ x ≠ delim) :
    findEnd delim false (front ++ (piece ++ delim :: rest)) (piece ++ delim :: rest).length
      front.length = some ((front ++ piece).length, true) := by
  rw [findEnd_skip front rest (by simpa using hPiece), List.length_cons, findEnd, getElem?_front]
  simp [hDelim]

theorem findEnd_bare_nul {piece : List Char} (hPiece : ∀ x ∈ piece, x ≠ nul ∧ x ≠ delim) :
    findEnd delim false (front ++ (piece ++ nul :: rest)) (piece ++ nul :: rest).length
      front.length = some ((front ++ piece).length, false) := by
  rw [findEnd_skip front rest (by simpa using hPiece), List.length_cons, findEnd, getElem?_front]
  simp

/-- A token with quotes ends at a quote in front of the delimiter. -/
theorem findEnd_quoted {body : List Char} (hBody : ∀ x ∈ body, x ≠ nul ∧ x ≠ '"') :
    findEnd delim true (front ++ (body ++ '"' :: delim :: rest))
      (body ++ '"' :: delim :: rest).length front.length =
        some ((front ++ body).length, true) := by
  have hNext : ((front ++ body) ++ '"' :: delim :: rest)[(front ++ body).length + 1]? =
      some delim := by
    rw [List.getElem?_append_right (Nat.le_add_right _ _), Nat.add_sub_cancel_left]
    rfl
  rw [findEnd_skip front (delim :: rest) (by simpa using hBody), List.length_cons, findEnd,
    getElem?_front, hNext]
  simp [nul]

theorem findEnd_quoted_nul {body : List Char} (hDelim : delim ≠ nul)
    (hBody : ∀ x ∈ body, x ≠ nul ∧ x ≠ '"') :
    findEnd delim true (front ++ (body ++ '"' :: nul :: rest))
      (body ++ '"' :: nul :: rest).length front.length =
        some ((front ++ body ++ ['"']).length, false) := by
  rw [findEnd_skip front (nul :: rest) (by simpa using hBody),
    findEnd_cons (front ++ body) rest (by decide) (by simpa using hDelim.symm), List.length_cons,
    findEnd, getElem?_front]
  simp

end Scan

section Token

variable {delim c : Char} (front rest : List Char)

theorem skipBlanks_of_not_blank (hFirst : isBlank c = false) :
    skipBlanks (front ++ c :: rest) ((front ++ c :: rest).length - front.length) front.length =
      some front.length := by
  rw [List.length_append, Nat.add_sub_cancel_left, List.length_cons, skipBlanks, getElem?_front]
  simp [hFirst]

theorem eatBlanks_of_not_blank (hLast : isBlank c = false) :
    eatBlanks (front ++ [c]).length (front ++ [c] ++ rest) =
      some ((front ++ [c]).length, front ++ [c] ++ rest) := by
  rw [List.length_append, List.append_assoc, List.singleton_append, List.length_singleton,
    eatBlanks, getElem?_front]
  simp [hLast]

theorem GetToken_of_delimiter {pCur : Nat} (hFirst : isBlank c = false)
    (hEnd : findEnd delim (c = '"') (front ++ c :: rest) (c :: rest).length front.length =
      some (pCur, true)) :
    GetToken (front ++ c :: rest) front.length delim true =
      some (if c = '"' then ⟨front.length + 1, pCur + 2, (front ++ c :: rest).set pCur nul⟩
        else ⟨front.length, pCur + 1, (front ++ c :: rest).set pCur nul⟩) := by
  rw [GetToken]
  simp only [if_true, skipBlanks_of_not_blank front rest hFirst, getElem?_front,
    Option.bind_eq_bind, Option.bind_some]
  rw [List.length_append, Nat.add_sub_cancel_left, hEnd]
  by_cases hQuote : c = '"' <;> simp [hQuote]

theorem GetToken_of_nul {pCur : Nat} {line : List Char} (hFirst : isBlank c = false)
    (hEnd : findEnd delim (c = '"') (front ++ c :: rest) (c :: rest).length front.length =
      some (pCur, false))
    (hBlanks : eatBlanks pCur (front ++ c :: rest) = some (pCur, line)) :
    GetToken (front ++ c :: rest) front.length delim true =
      some (if c = '"' then ⟨front.length + 1, pCur - 1, line.set (pCur - 1) nul⟩
        else ⟨front.length, pCur, line⟩) := by
  rw [GetToken]
  simp only [if_true, skipBlanks_of_not_blank front rest hFirst, getElem?_front,
    Option.bind_eq_bind, Option.bind_some]
  rw [List.length_append, Nat.add_sub_cancel_left, hEnd]
  simp only [Option.bind_some, Bool.false_eq_true, if_false, hBlanks, decide_eq_true_eq]
  by_cases hQuote : c = '"' <;> simp [hQuote]

/-- A token without quotes that the delimiter ends. -/
theorem GetToken_bare {piece : List Char} (hDelim : Delimiter delim)
    (hPiece : ∀ x ∈ piece, x ≠ nul ∧ x ≠ delim)
    (hFirst : ∀ x ∈ piece.head?, x ≠ '"' ∧ isBlank x = false) :
    GetToken (front ++ (piece ++ delim :: rest)) front.length delim true =
      some ⟨front.length, (front ++ piece ++ [nul]).length, front ++ piece ++ nul :: rest⟩ := by
  obtain ⟨c, behind, hc, hQuote, hBlank⟩ : ∃ c behind, piece ++ delim :: rest = c :: behind ∧
      c ≠ '"' ∧ isBlank c = false := by
    cases piece with
    | nil => exact ⟨delim, rest, rfl, hDelim.ne_quote, hDelim.not_blank⟩
    | cons c piece => exact ⟨c, _, rfl, hFirst c rfl⟩
  have hEnd := findEnd_bare front rest hDelim.ne_nul hPiece
  rw [hc] at hEnd
  rw [hc, GetToken_of_delimiter front behind hBlank (by rw [decide_eq_false hQuote, hEnd]),
    if_neg hQuote, ← hc, ← List.append_assoc, set_front]
  simp [Nat.add_assoc]

/-- A token without quotes at the end of the line. -/
theorem GetToken_bare_nul {piece : List Char} {last : Char}
    (hPiece : ∀ x ∈ piece ++ [last], x ≠ nul ∧ x ≠ delim)
    (hFirst : ∀ x ∈ (piece ++ [last]).head?, x ≠ '"' ∧ isBlank x = false)
    (hLast : isBlank last = false) :
    GetToken (front ++ (piece ++ [last] ++ nul :: rest)) front.length delim true =
      some ⟨front.length, (front ++ (piece ++ [last])).length,
        front ++ (piece ++ [last] ++ nul :: rest)⟩ := by
  obtain ⟨c, behind, hc, hQuote, hBlank⟩ : ∃ c behind,
      piece ++ [last] ++ nul :: rest = c :: behind ∧ c ≠ '"' ∧ isBlank c = false := by
    cases piece with
    | nil => exact ⟨last, _, rfl, hFirst last rfl⟩
    | cons c piece => exact ⟨c, _, rfl, hFirst c rfl⟩
  have hEnd := findEnd_bare_nul front rest hPiece
  have hBlanks := eatBlanks_of_not_blank (front ++ piece) (nul :: rest) hLast
  rw [List.append_assoc front, List.append_assoc front] at hBlanks
  rw [hc] at hEnd hBlanks
  rw [hc, GetToken_of_nul front behind hBlank (by rw [decide_eq_false hQuote, hEnd]) hBlanks,
    if_neg hQuote]

/-- The opening quote, and what is behind it. -/
theorem findEnd_opening {next : Char} (hNext : next ≠ delim) :
    findEnd delim true (front ++ '"' :: next :: rest) ('"' :: next :: rest).length front.length =
      findEnd delim true ((front ++ ['"']) ++ next :: rest) (next :: rest).length
        (front ++ ['"']).length :=
  findEnd_cons front rest (by decide) fun _ => hNext

/-- What is behind the opening quote, if the delimiter is not. -/
theorem exists_opening {body : List Char} (hDelim : Delimiter delim)
    (hFirst : body.head? ≠ some delim) :
    ∃ next behind, body ++ '"' :: rest = next :: behind ∧ next ≠ delim := by
  cases body with
  | nil => exact ⟨'"', rest, rfl, hDelim.ne_quote.symm⟩
  | cons c body => exact ⟨c, _, rfl, fun hEq => hFirst (congrArg some hEq)⟩

/-- A token with quotes that does not begin with the delimiter. -/
theorem GetToken_quoted {body : List Char} (hDelim : Delimiter delim)
    (hBody : ∀ x ∈ body, x ≠ nul ∧ x ≠ '"') (hFirst : body.head? ≠ some delim) :
    GetToken (front ++ '"' :: (body ++ '"' :: delim :: rest)) front.length delim true =
      some ⟨front.length + 1, (front ++ '"' :: (body ++ [nul, delim])).length,
        front ++ '"' :: (body ++ nul :: delim :: rest)⟩ := by
  obtain ⟨next, behind, hc, hNext⟩ := exists_opening (delim :: rest) hDelim hFirst
  have hEnd := @findEnd_quoted delim (front ++ ['"']) rest body hBody
  rw [hc, ← findEnd_opening front behind hNext, ← hc] at hEnd
  have hLine : front ++ '"' :: (body ++ '"' :: delim :: rest) =
      front ++ ['"'] ++ body ++ '"' :: delim :: rest := by simp
  rw [GetToken_of_delimiter front _ (by decide) hEnd, if_pos rfl, hLine, set_front]
  simp [Nat.add_assoc]

/-- A token with quotes at the end of the line. -/
theorem GetToken_quoted_nul {body : List Char} (hDelim : Delimiter delim)
    (hBody : ∀ x ∈ body, x ≠ nul ∧ x ≠ '"') (hFirst : body.head? ≠ some delim) :
    GetToken (front ++ '"' :: (body ++ '"' :: nul :: rest)) front.length delim true =
      some ⟨front.length + 1, (front ++ '"' :: body).length,
        front ++ '"' :: (body ++ nul :: nul :: rest)⟩ := by
  obtain ⟨next, behind, hc, hNext⟩ := exists_opening (nul :: rest) hDelim hFirst
  have hEnd := findEnd_quoted_nul (front ++ ['"']) rest hDelim.ne_nul hBody
  rw [hc, ← findEnd_opening front behind hNext, ← hc] at hEnd
  have hLine : front ++ '"' :: (body ++ '"' :: nul :: rest) =
      front ++ ['"'] ++ body ++ '"' :: nul :: rest := by simp
  have hBlanks := eatBlanks_of_not_blank (front ++ ['"'] ++ body) (nul :: rest)
    (show isBlank '"' = false by decide)
  rw [List.append_assoc (front ++ ['"'] ++ body), List.singleton_append, ← hLine] at hBlanks
  rw [GetToken_of_nul front _ (by decide) hEnd hBlanks, if_pos rfl, List.length_append,
    List.length_singleton, Nat.add_sub_cancel, hLine, set_front]
  simp

/-- An opening quote in front of the delimiter is taken for a closing one. -/
theorem GetToken_opening :
    GetToken (front ++ '"' :: delim :: rest) front.length delim true =
      some ⟨front.length + 1, (front ++ [nul, delim]).length, front ++ nul :: delim :: rest⟩ := by
  have hEnd := @findEnd_quoted delim front rest [] (by simp)
  rw [List.nil_append, List.append_nil] at hEnd
  rw [GetToken_of_delimiter front _ (by decide) hEnd, if_pos rfl, set_front]
  simp

end Token

section Loop

variable {delim c : Char} (front rest : List Char) (room : Nat)

theorem eachToken_nul :
    eachToken delim true room (front ++ nul :: rest) front.length =
      some ([], front ++ nul :: rest) := by
  cases room <;> simp [eachToken]

theorem eachToken_succ {token : Token} (hNul : c ≠ nul)
    (hToken : GetToken (front ++ c :: rest) front.length delim true = some token) :
    eachToken delim true (room + 1) (front ++ c :: rest) front.length =
      (eachToken delim true room token.line token.pNext).map
        fun result => (token.pStart :: result.1, result.2) := by
  rw [eachToken, getElem?_front, hToken]
  simp only [Option.bind_eq_bind, Option.bind_some, if_neg hNul, Option.map_eq_bind]
  rfl

/-- For an array with room, it is the loop that gets the first token, too. -/
theorem elements_succ (hNul : c ≠ nul) :
    elements (room + 1) (c :: rest) delim true =
      (eachToken delim true (room + 1) (c :: rest) 0).bind fun result =>
        result.1.mapM fun pStart => stringAt pStart result.2 := by
  rw [elements, eachToken, List.getElem?_cons_zero]
  simp only [Option.bind_eq_bind, Option.bind_some, if_neg hNul, Nat.add_sub_cancel,
    Option.bind_assoc]

end Loop

section Fields

variable {delim : Char}

theorem lineOf_singleton (f : Field delim) : lineOf [f] = f.text ++ [nul] := by
  simp [lineOf]

theorem lineOf_cons (f g : Field delim) (fields : List (Field delim)) :
    lineOf (f :: g :: fields) = f.text ++ delim :: lineOf (g :: fields) := by
  simp [lineOf, List.intercalate_cons_cons]

/-- A quoted field that begins with the delimiter. -/
def Field.broken (f : Field delim) : Bool := f.quoted && f.value.head? == some delim

theorem Field.exists_text (f : Field delim) :
    ∃ c behind, c ≠ nul ∧ f.text = c :: behind := by
  rw [Field.text]
  by_cases hQuoted : f.quoted = true
  · exact ⟨'"', _, by decide, if_pos hQuoted⟩
  · rw [if_neg hQuoted]
    obtain ⟨c, behind, hValue⟩ :=
      List.exists_cons_of_ne_nil (f.bare (Bool.eq_false_iff.mpr hQuoted)).1
    have hMem : c ∈ f.value := hValue ▸ List.mem_cons_self
    exact ⟨c, behind, fun hNul => f.no_nul (hNul ▸ hMem), hValue⟩

theorem Field.inside (f : Field delim) : ∀ x ∈ f.value, x ≠ nul ∧ x ≠ '"' := fun _ hx =>
  ⟨fun hNul => f.no_nul (hNul ▸ hx), fun hQuote => f.no_quote (hQuote ▸ hx)⟩

/-- A field in front of others gives its token, and the next one begins behind the delimiter. -/
theorem Field.token (hDelim : Delimiter delim) (f : Field delim) (hGood : f.broken = false)
    (front rest : List Char) :
    ∃ done skip, GetToken (front ++ (f.text ++ delim :: rest)) front.length delim true =
        some ⟨front.length + skip, (front ++ done).length, front ++ done ++ rest⟩ ∧
      ∀ tail, stringAt (front.length + skip) (front ++ done ++ tail) = some f.value := by
  rw [Field.text]
  by_cases hQuoted : f.quoted = true
  · have hFirst : f.value.head? ≠ some delim := by simpa [Field.broken, hQuoted] using hGood
    refine ⟨'"' :: (f.value ++ [nul, delim]), 1, ?_, fun tail => ?_⟩
    · have hToken := GetToken_quoted front rest hDelim f.inside hFirst
      rw [if_pos hQuoted]
      simpa using hToken
    · have hString := stringAt_append (front ++ ['"']) f.no_nul (delim :: tail)
      simpa using hString
  · obtain ⟨-, hOutside⟩ := f.bare (Bool.eq_false_iff.mpr hQuoted)
    refine ⟨f.value ++ [nul], 0, ?_, fun tail => ?_⟩
    · have hToken := GetToken_bare front rest hDelim
        (fun x hx => ⟨(f.inside x hx).1, fun hEq => hOutside (hEq ▸ hx)⟩)
        (fun x hx => ⟨(f.inside x (List.mem_of_mem_head? hx)).2, f.begins x hx⟩)
      rw [if_neg hQuoted]
      simpa using hToken
    · have hString := stringAt_append front f.no_nul tail
      simpa using hString

/-- The last field gives its token, too, and the loop ends. -/
theorem Field.token_nul (hDelim : Delimiter delim) (f : Field delim) (hGood : f.broken = false)
    (front : List Char) :
    ∃ done skip tail, GetToken (front ++ (f.text ++ [nul])) front.length delim true =
        some ⟨front.length + skip, (front ++ done).length, front ++ done ++ nul :: tail⟩ ∧
      stringAt (front.length + skip) (front ++ done ++ nul :: tail) = some f.value := by
  rw [Field.text]
  by_cases hQuoted : f.quoted = true
  · have hFirst : f.value.head? ≠ some delim := by simpa [Field.broken, hQuoted] using hGood
    refine ⟨'"' :: f.value, 1, [nul], ?_, ?_⟩
    · have hToken := GetToken_quoted_nul front [] hDelim f.inside hFirst
      rw [if_pos hQuoted]
      simpa using hToken
    · have hString := stringAt_append (front ++ ['"']) f.no_nul [nul]
      simpa using hString
  · obtain ⟨hNonempty, hOutside⟩ := f.bare (Bool.eq_false_iff.mpr hQuoted)
    obtain ⟨piece, last, hValue⟩ := (List.eq_nil_or_concat' f.value).resolve_left hNonempty
    refine ⟨f.value, 0, [], ?_, ?_⟩
    · have hToken := @GetToken_bare_nul delim front [] piece last
        (hValue ▸ fun x hx => ⟨(f.inside x hx).1, fun hEq => hOutside (hEq ▸ hx)⟩)
        (hValue ▸ fun x hx => ⟨(f.inside x (List.mem_of_mem_head? hx)).2, f.begins x hx⟩)
        (f.ends last (by simp [hValue]))
      rw [if_neg hQuoted]
      simpa [hValue] using hToken
    · have hString := stringAt_append front f.no_nul []
      simpa using hString

/-- The tokens of a line without such a field are the fields. -/
theorem eachToken_fields (hDelim : Delimiter delim) (fields : List (Field delim))
    (hNonempty : fields ≠ []) (hGood : ∀ f ∈ fields, f.broken = false) (front : List Char)
    {room : Nat} (hRoom : fields.length ≤ room) :
    ∃ starts tail, eachToken delim true room (front ++ lineOf fields) front.length =
        some (starts, front ++ tail) ∧
      starts.mapM (fun pStart => stringAt pStart (front ++ tail)) =
        some (fields.map Field.value) := by
  induction fields generalizing front room with
  | nil => exact absurd rfl hNonempty
  | cons f fields ih =>
      obtain ⟨hFirst, hRest⟩ := List.forall_mem_cons.mp hGood
      obtain ⟨room, rfl⟩ : ∃ n, room = n + 1 := ⟨room - 1, by simp at hRoom; omega⟩
      obtain ⟨c, behind, hNul, hText⟩ := f.exists_text
      cases fields with
      | nil =>
          obtain ⟨done, skip, tail, hToken, hString⟩ := f.token_nul hDelim hFirst front
          refine ⟨[front.length + skip], done ++ nul :: tail, ?_, ?_⟩
          · rw [hText, List.cons_append] at hToken
            rw [lineOf_singleton, hText, List.cons_append, eachToken_succ _ _ _ hNul hToken,
              eachToken_nul, ← List.append_assoc]
            rfl
          · rw [← List.append_assoc, List.mapM_cons, hString]
            rfl
      | cons g fields =>
          obtain ⟨done, skip, hToken, hString⟩ :=
            f.token hDelim hFirst front (lineOf (g :: fields))
          obtain ⟨starts, tail, hLoop, hStrings⟩ :=
            ih (by simp) hRest (front ++ done) (Nat.le_of_succ_le_succ hRoom)
          refine ⟨(front.length + skip) :: starts, done ++ tail, ?_, ?_⟩
          · rw [hText, List.cons_append] at hToken
            rw [lineOf_cons, hText, List.cons_append, eachToken_succ _ _ _ hNul hToken, hLoop,
              ← List.append_assoc]
            rfl
          · rw [← List.append_assoc, List.mapM_cons, hString, hStrings]
            rfl

/-- Behind whatever, at least so many tokens are read from the text, if there is room. -/
def AtLeast (delim : Char) (n : Nat) (text : List Char) : Prop :=
  ∀ room front starts line, eachToken delim true room (front ++ text) front.length =
    some (starts, line) → min room n ≤ starts.length

theorem AtLeast.mono {m n : Nat} {text : List Char} (h : AtLeast delim n text) (hLe : m ≤ n) :
    AtLeast delim m text := by
  intro room front starts line hLoop
  have hCount := h room front starts line hLoop
  omega

theorem atLeast_of_token {n : Nat} {text behind : List Char}
    (hText : ∃ c rest, c ≠ nul ∧ text = c :: rest)
    (hToken : ∀ front, ∃ skip done,
      GetToken (front ++ text) front.length delim true =
        some ⟨skip, (front ++ done).length, front ++ done ++ behind⟩)
    (hBehind : AtLeast delim n behind) : AtLeast delim (n + 1) text := by
  intro room front starts line hLoop
  obtain ⟨c, rest, hNul, rfl⟩ := hText
  obtain ⟨skip, done, hToken⟩ := hToken front
  cases room with
  | zero => simp
  | succ room =>
      rw [eachToken_succ _ _ _ hNul hToken] at hLoop
      obtain ⟨⟨others, last⟩, hOthers, hEq⟩ := Option.map_eq_some_iff.mp hLoop
      obtain ⟨rfl, rfl⟩ := Prod.mk.inj hEq
      have hCount := hBehind room _ others last hOthers
      change min (room + 1) (n + 1) ≤ others.length + 1
      omega

/-- Blanks in front of a token are skipped. -/
theorem GetToken_blank {c d : Char} (hBlank : isBlank c = true) (front rest : List Char) :
    GetToken (front ++ c :: d :: rest) front.length delim true =
      GetToken (front ++ c :: d :: rest) (front.length + 1) delim true := by
  have hSkip : skipBlanks (front ++ c :: d :: rest)
      ((front ++ c :: d :: rest).length - front.length) front.length =
      skipBlanks (front ++ c :: d :: rest)
        ((front ++ c :: d :: rest).length - (front.length + 1)) (front.length + 1) := by
    rw [List.length_append, Nat.add_sub_cancel_left, Nat.add_sub_add_left, List.length_cons,
      Nat.add_sub_cancel, skipBlanks, getElem?_front]
    simp [hBlank]
  rw [GetToken, GetToken]
  simp only [if_true, hSkip]

theorem atLeast_blank {n : Nat} {c d : Char} {rest : List Char} (hBlank : isBlank c = true)
    (hNul : d ≠ nul) (hBehind : AtLeast delim n (d :: rest)) :
    AtLeast delim n (c :: d :: rest) := by
  intro room front starts line hLoop
  cases room with
  | zero => simp
  | succ room =>
      have hBlankNul : c ≠ nul := by
        rintro rfl
        exact absurd hBlank (by decide)
      apply hBehind (room + 1) (front ++ [c]) starts line
      rw [← hLoop, List.append_assoc, List.singleton_append, List.length_append,
        List.length_singleton, eachToken, eachToken, getElem?_front, GetToken_blank hBlank]
      simp [hBlankNul, hNul]

theorem atLeast_bare (hDelim : Delimiter delim) {n : Nat} {piece behind : List Char}
    (hPiece : ∀ x ∈ piece, x ≠ nul ∧ x ≠ delim)
    (hFirst : ∀ x ∈ piece.head?, x ≠ '"' ∧ isBlank x = false)
    (hBehind : AtLeast delim n behind) : AtLeast delim (n + 1) (piece ++ delim :: behind) := by
  have hText : ∃ c rest, c ≠ nul ∧ piece ++ delim :: behind = c :: rest := by
    cases piece with
    | nil => exact ⟨delim, behind, hDelim.ne_nul, rfl⟩
    | cons c piece => exact ⟨c, _, (hPiece c List.mem_cons_self).1, rfl⟩
  refine atLeast_of_token hText (fun front => ⟨front.length, piece ++ [nul], ?_⟩) hBehind
  have hToken := GetToken_bare front behind hDelim hPiece hFirst
  simpa using hToken

theorem atLeast_opening {n : Nat} {behind : List Char} (hBehind : AtLeast delim n behind) :
    AtLeast delim (n + 1) ('"' :: delim :: behind) := by
  refine atLeast_of_token ⟨'"', _, by decide, rfl⟩
    (fun front => ⟨front.length + 1, [nul, delim], ?_⟩) hBehind
  have hToken := @GetToken_opening delim front behind
  simpa using hToken

/-- There is a token in front of what is behind a quote and a delimiter, at least. -/
theorem atLeast_quote (hDelim : Delimiter delim) {n : Nat} {behind : List Char}
    (hBehind : AtLeast delim n behind) (piece : List Char)
    (hPiece : ∀ x ∈ piece, x ≠ nul ∧ x ≠ '"') :
    AtLeast delim (n + 1) (piece ++ '"' :: delim :: behind) := by
  induction hLength : piece.length using Nat.strongRecOn generalizing piece with
  | _ k ih =>
      cases piece with
      | nil => exact atLeast_opening hBehind
      | cons c piece =>
          obtain ⟨⟨hNul, hQuote⟩, hRest⟩ := List.forall_mem_cons.mp hPiece
          by_cases hBlank : isBlank c = true
          · obtain ⟨d, rest, hd, hText⟩ : ∃ d rest, d ≠ nul ∧
                piece ++ '"' :: delim :: behind = d :: rest := by
              cases piece with
              | nil => exact ⟨'"', _, by decide, rfl⟩
              | cons d piece => exact ⟨d, _, (hRest d List.mem_cons_self).1, rfl⟩
            have hCount := ih piece.length (by simp [← hLength]) piece hRest rfl
            rw [hText] at hCount
            rw [List.cons_append, hText]
            exact atLeast_blank hBlank hd hCount
          · have hFirst : ∀ x, c = x → x ≠ '"' ∧ isBlank x = false := by
              rintro _ rfl
              exact ⟨hQuote, by simpa using hBlank⟩
            by_cases hMem : delim ∈ c :: piece
            · -- the token ends at the first delimiter, in front of the quote
              obtain ⟨before, after, hSplit, hBefore⟩ := List.eq_append_cons_of_mem hMem
              have hAfter := ih after.length (by rw [← hLength, hSplit]; simp; omega) after
                (fun x hx => hPiece x (by simp [hSplit, hx])) rfl
              have hHead : ∀ x ∈ before.head?, c = x := by
                intro x hx
                obtain ⟨rest, rfl⟩ := List.head?_eq_some_iff.mp hx
                exact (List.cons.inj hSplit).1
              have hBoth := atLeast_bare hDelim
                (fun x hx => ⟨(hPiece x (by simp [hSplit, hx])).1, fun hEq => hBefore (hEq ▸ hx)⟩)
                (fun x hx => hFirst x (hHead x hx)) hAfter
              rw [hSplit, List.append_assoc]
              exact hBoth.mono (Nat.le_succ _)
            · -- the quote is the last character of the token
              have hPiece' : ∀ x ∈ c :: piece ++ ['"'], x ≠ nul ∧ x ≠ delim := by
                intro x hx
                rcases List.mem_append.mp hx with hx | hx
                · exact ⟨(hPiece x hx).1, fun hEq => hMem (hEq ▸ hx)⟩
                · rw [List.mem_singleton.mp hx]
                  exact ⟨by decide, hDelim.ne_quote.symm⟩
              have hToken := atLeast_bare hDelim hPiece'
                (fun x hx => hFirst x (Option.some.inj hx)) hBehind
              rwa [List.append_assoc] at hToken

theorem atLeast_one {c : Char} {rest : List Char} (hNul : c ≠ nul) :
    AtLeast delim 1 (c :: rest) := by
  intro room front starts line hLoop
  cases room with
  | zero => simp
  | succ room =>
      cases hToken : GetToken (front ++ c :: rest) front.length delim true with
      | none =>
          rw [eachToken, getElem?_front, hToken] at hLoop
          simp [hNul] at hLoop
      | some token =>
          rw [eachToken_succ _ _ _ hNul hToken] at hLoop
          obtain ⟨⟨others, last⟩, -, hEq⟩ := Option.map_eq_some_iff.mp hLoop
          obtain ⟨rfl, rfl⟩ := Prod.mk.inj hEq
          simp

theorem Field.text_of_broken {f : Field delim} (h : f.broken = true) :
    ∃ rest, f.text = '"' :: delim :: (rest ++ ['"']) ∧ ∀ x ∈ rest, x ≠ nul ∧ x ≠ '"' := by
  obtain ⟨hQuoted, hHead⟩ := Bool.and_eq_true_iff.mp h
  obtain ⟨rest, hValue⟩ := List.head?_eq_some_iff.mp (eq_of_beq hHead)
  refine ⟨rest, by rw [Field.text, if_pos hQuoted, hValue]; rfl, fun x hx => f.inside x ?_⟩
  rw [hValue]
  exact List.mem_cons_of_mem _ hx

theorem atLeast_singleton (f : Field delim) :
    AtLeast delim (1 + if f.broken then 1 else 0) (f.text ++ [nul]) := by
  cases hBroken : f.broken with
  | false =>
      obtain ⟨c, behind, hNul, hText⟩ := f.exists_text
      rw [hText]
      exact atLeast_one hNul
  | true =>
      obtain ⟨rest, hText, hRest⟩ := Field.text_of_broken hBroken
      have hClosing : AtLeast delim 1 (rest ++ ['"'] ++ [nul]) := by
        cases rest with
        | nil => exact atLeast_one (by decide)
        | cons x rest => exact atLeast_one (hRest x List.mem_cons_self).1
      rw [hText]
      exact atLeast_opening hClosing

theorem atLeast_cons (hDelim : Delimiter delim) {n : Nat} {others : List Char} (f : Field delim)
    (hOthers : AtLeast delim n others) :
    AtLeast delim (n + 1 + if f.broken then 1 else 0) (f.text ++ delim :: others) := by
  cases hBroken : f.broken with
  | false =>
      obtain ⟨c, behind, hNul, hText⟩ := f.exists_text
      have hHead : ∃ d rest, d ≠ nul ∧ f.text ++ delim :: others = d :: rest :=
        ⟨c, _, hNul, congrArg (· ++ delim :: others) hText⟩
      refine atLeast_of_token hHead (fun front => ?_) hOthers
      obtain ⟨done, skip, hToken, -⟩ := f.token hDelim hBroken front others
      exact ⟨_, done, hToken⟩
  | true =>
      obtain ⟨rest, hText, hRest⟩ := Field.text_of_broken hBroken
      rw [hText, List.cons_append, List.cons_append, List.append_assoc]
      exact atLeast_opening (atLeast_quote hDelim hOthers rest hRest)

/-- Each field gives a token, at least, and one that begins with the delimiter gives two. -/
theorem atLeast_fields (hDelim : Delimiter delim) (fields : List (Field delim))
    (hNonempty : fields ≠ []) :
    AtLeast delim (fields.length + fields.countP Field.broken) (lineOf fields) := by
  induction fields with
  | nil => exact absurd rfl hNonempty
  | cons f fields ih =>
      cases fields with
      | nil =>
          rw [lineOf_singleton, List.countP_singleton]
          exact atLeast_singleton f
      | cons g fields =>
          have hAll := atLeast_cons hDelim f (ih (by simp))
          rw [lineOf_cons, List.countP_cons, List.length_cons]
          exact hAll.mono (by omega)

theorem length_mapM {α β : Type} {f : α → Option β} {l : List α} {result : List β}
    (h : l.mapM f = some result) : result.length = l.length := by
  induction l generalizing result with
  | nil =>
      rw [← Option.some.inj h]
      rfl
  | cons a l ih =>
      rw [List.mapM_cons] at h
      obtain ⟨b, -, hRest⟩ := Option.bind_eq_some_iff.mp h
      obtain ⟨others, hOthers, hEq⟩ := Option.bind_eq_some_iff.mp hRest
      rw [← Option.some.inj hEq, List.length_cons, List.length_cons, ih hOthers]

/-- The tokens of a line are its fields exactly if no quoted field begins with the delimiter. -/
theorem elements_eq_iff (hDelim : Delimiter delim) (fields : List (Field delim))
    (hNonempty : fields ≠ []) {size : Nat} (hSize : fields.length < size) :
    elements size (lineOf fields) delim true = some (fields.map Field.value) ↔
      ∀ f ∈ fields, f.quoted = true → f.value.head? ≠ some delim := by
  obtain ⟨room, rfl⟩ : ∃ n, size = n + 1 := ⟨size - 1, by omega⟩
  obtain ⟨c, rest, hNul, hLine⟩ : ∃ c rest, c ≠ nul ∧ lineOf fields = c :: rest := by
    obtain ⟨f, others, rfl⟩ := List.exists_cons_of_ne_nil hNonempty
    obtain ⟨c, behind, hNul, hText⟩ := f.exists_text
    cases others with
    | nil => exact ⟨c, _, hNul, by rw [lineOf_singleton, hText]; rfl⟩
    | cons g others => exact ⟨c, _, hNul, by rw [lineOf_cons, hText]; rfl⟩
  have hElements := @elements_succ delim c rest room hNul
  rw [← hLine] at hElements
  rw [hElements]
  constructor
  · intro hTokens f hf hQuoted hFirst
    obtain ⟨⟨starts, line⟩, hLoop, hStrings⟩ := Option.bind_eq_some_iff.mp hTokens
    have hBroken : 0 < fields.countP Field.broken :=
      List.countP_pos_iff.mpr ⟨f, hf, by simp [Field.broken, hQuoted, hFirst]⟩
    have hLength : fields.length = starts.length := by
      rw [← length_mapM hStrings, List.length_map]
    have hCount : min (room + 1) (fields.length + fields.countP Field.broken) ≤ starts.length :=
      atLeast_fields hDelim fields hNonempty (room + 1) [] starts line hLoop
    omega
  · intro hGood
    have hBroken : ∀ f ∈ fields, f.broken = false := by
      intro f hf
      have hFirst := hGood f hf
      cases hQuoted : f.quoted with
      | false => simp [Field.broken, hQuoted]
      | true => simpa [Field.broken, hQuoted] using hFirst hQuoted
    obtain ⟨starts, tail, hLoop, hStrings⟩ :=
      eachToken_fields hDelim fields hNonempty hBroken [] (Nat.le_of_lt hSize)
    exact Option.bind_eq_some_iff.mpr ⟨_, hLoop, hStrings⟩

/-- An empty field between quotes, one with the delimiter inside, and one without quotes. -/
def someFields : List (Field ',') :=
  [⟨[], true, by decide, by decide, by simp, by simp, by decide⟩,
    ⟨['a', ',', 'b'], true, by decide, by decide, by simp [isBlank], by simp [isBlank], by decide⟩,
    ⟨['c'], false, by decide, by decide, by simp [isBlank], by simp [isBlank], by decide⟩]

theorem elements_eq_iff_some : elements 2048 (lineOf someFields) ',' true =
    some [[], ['a', ',', 'b'], ['c']] :=
  (elements_eq_iff ⟨by decide, by decide, by decide⟩ someFields (by decide) (by decide)).mpr
    (by decide)

/-- A field that is the delimiter itself. -/
def delimiterField : Field ',' :=
  ⟨[','], true, by decide, by decide, by simp [isBlank], by simp [isBlank], by decide⟩

theorem not_elements_delimiter :
    elements 2048 (lineOf [delimiterField]) ',' true = some [[','], []] ∧
      elements 2048 (lineOf [delimiterField]) ',' true ≠
        some ([delimiterField].map Field.value) := by
  decide

end Fields

end CppPerf.Text
