import Mathlib.Algebra.Ring.Int.Defs
import Mathlib.Algebra.Ring.Nat
import Mathlib.Data.List.Basic
import Mathlib.Tactic.Common

/-! `base64_encode` and `base64_decode` of `base64.cpp`. Of the arrays the entries before `i` are
kept, since the others are written before they are read. An index outside of the alphabet fails,
and so does an `int` that overflows. -/
namespace CppPerf.Text.Base64

def base64_chars : List Char :=
  ['A', 'B', 'C', 'D', 'E', 'F', 'G', 'H', 'I', 'J', 'K', 'L', 'M', 'N', 'O', 'P', 'Q', 'R', 'S',
    'T', 'U', 'V', 'W', 'X', 'Y', 'Z', 'a', 'b', 'c', 'd', 'e', 'f', 'g', 'h', 'i', 'j', 'k', 'l',
    'm', 'n', 'o', 'p', 'q', 'r', 's', 't', 'u', 'v', 'w', 'x', 'y', 'z', '0', '1', '2', '3', '4',
    '5', '6', '7', '8', '9', '+', '/']

def is_base64 (c : Char) : Bool := c.isAlphanum || c = '+' || c = '/'

/-- `char_array_4` for three bytes. -/
def sextets (a b c : UInt8) : List UInt8 :=
  [(a &&& 0xfc) >>> 2, ((a &&& 0x03) <<< 4) + ((b &&& 0xf0) >>> 4),
    ((b &&& 0x0f) <<< 2) + ((c &&& 0xc0) >>> 6), c &&& 0x3f]

/-- `char_array_3` for four sextets. -/
def octets (w x y z : UInt8) : List UInt8 :=
  [(w <<< 2) + ((x &&& 0x30) >>> 4), ((x &&& 0xf) <<< 4) + ((y &&& 0x3c) >>> 2),
    ((y &&& 0x3) <<< 6) + z]

def at_chars (char_array_4 : List UInt8) : Option (List Char) :=
  char_array_4.mapM fun k => base64_chars[k.toNat]?

/-- What follows the loop over the bytes. -/
def encode_rest (char_array_3 : List UInt8) (ret : List Char) : Option (List Char) :=
  match char_array_3 with
  | [] => some ret
  | [a] => do
      let chars ← at_chars ((sextets a 0 0).take 2)
      return ret ++ chars ++ ['=', '=']
  | a :: b :: _ => do
      let chars ← at_chars ((sextets a b 0).take 3)
      return ret ++ chars ++ ['=']

/-- One byte more in `char_array_3`, which is written out when it is full. -/
def encode_next (byte : UInt8) (char_array_3 : List UInt8) (ret : List Char) :
    Option (List UInt8 × List Char) :=
  match char_array_3 with
  | [a, b] => do
      let chars ← at_chars (sextets a b byte)
      return ([], ret ++ chars)
  | char_array_3 => some (char_array_3 ++ [byte], ret)

def encode_loop : (bytes_to_encode char_array_3 : List UInt8) → (ret : List Char) →
    Option (List Char)
  | [], char_array_3, ret => encode_rest char_array_3 ret
  | byte :: bytes_to_encode, char_array_3, ret => do
      let (char_array_3, ret) ← encode_next byte char_array_3 ret
      encode_loop bytes_to_encode char_array_3 ret

def base64_encode (bytes_to_encode : List UInt8) : Option (List Char) :=
  encode_loop bytes_to_encode [] []

/-- `base64_chars.find`, as an `unsigned char`. -/
def find (c : Char) : UInt8 :=
  match base64_chars.idxOf? c with
  | some k => UInt8.ofNat k
  | none => 255

/-- What follows the loop over the characters. A terminating zero is not in the alphabet. -/
def decode_rest (char_array_4 : List Char) (ret : List UInt8) : List UInt8 :=
  match char_array_4 with
  | [] => ret
  | [_] => ret
  | [w, x] => ret ++ (octets (find w) (find x) (find '\x00') (find '\x00')).take 1
  | w :: x :: y :: _ => ret ++ (octets (find w) (find x) (find y) (find '\x00')).take 2

/-- One character more in `char_array_4`. -/
def decode_next (c : Char) (char_array_4 : List Char) (ret : List UInt8) :
    List Char × List UInt8 :=
  match char_array_4 with
  | [w, x, y] => ([], ret ++ octets (find w) (find x) (find y) (find c))
  | char_array_4 => (char_array_4 ++ [c], ret)

def decode_loop : (encoded_string : List Char) → (in_len in_ : Int) → (char_array_4 : List Char) →
    (ret : List UInt8) → Option (List UInt8)
  | [], in_len, _, char_array_4, ret =>
      if in_len = -2 ^ 31 then none else some (decode_rest char_array_4 ret)
  | c :: encoded_string, in_len, in_, char_array_4, ret =>
      if in_len = 0 then some (decode_rest char_array_4 ret)
      else if in_len = -2 ^ 31 then none
      else if c ≠ '=' ∧ is_base64 c then
        if in_ + 1 = 2 ^ 31 then none
        else
          let (char_array_4, ret) := decode_next c char_array_4 ret
          decode_loop encoded_string (in_len - 1) (in_ + 1) char_array_4 ret
      else some (decode_rest char_array_4 ret)

def base64_decode (encoded_string : List Char) : Option (List UInt8) :=
  decode_loop encoded_string ((encoded_string.length : Int).bmod (2 ^ 32)) 0 [] []

example : base64_encode [77, 97] = some ['T', 'W', 'E', '='] := by decide

section Bits

theorem mask_facts : ∀ n < 256, (n &&& 252) >>> 2 = n / 4 ∧ n &&& 3 = n % 4 ∧
    (n &&& 240) >>> 4 = n / 16 ∧ n &&& 15 = n % 16 ∧ (n &&& 192) >>> 6 = n / 64 ∧
    n &&& 63 = n % 64 ∧ (n &&& 48) >>> 4 = n / 16 % 4 ∧ (n &&& 60) >>> 2 = n / 4 % 16 := by
  decide +kernel

theorem map_toNat_sextets (a b c : UInt8) : (sextets a b c).map UInt8.toNat =
    [a.toNat / 4, a.toNat % 4 * 16 + b.toNat / 16, b.toNat % 16 * 4 + c.toNat / 64,
      c.toNat % 64] := by
  have ha := mask_facts a.toNat a.toNat_lt
  have hb := mask_facts b.toNat b.toNat_lt
  have hc := mask_facts c.toNat c.toNat_lt
  have hBounds := And.intro b.toNat_lt c.toNat_lt
  simp [sextets, ha, hb, hc, Nat.shiftLeft_eq]
  omega

theorem map_toNat_octets (w x y z : UInt8) : (octets w x y z).map UInt8.toNat =
    [(w.toNat * 4 + x.toNat / 16 % 4) % 256, (x.toNat % 16 * 16 + y.toNat / 4 % 16) % 256,
      (y.toNat % 4 * 64 + z.toNat) % 256] := by
  have hx := mask_facts x.toNat x.toNat_lt
  have hy := mask_facts y.toNat y.toNat_lt
  simp [octets, hx, hy, Nat.shiftLeft_eq]

theorem map_toNat_inj {l l' : List UInt8} (h : l.map UInt8.toNat = l'.map UInt8.toNat) : l = l' :=
  List.map_injective_iff.mpr (fun _ _ => UInt8.toNat_inj.mp) h

theorem octets_sextets {a b c w x y z : UInt8} (h : sextets a b c = [w, x, y, z]) :
    octets w x y z = [a, b, c] := by
  have hSextets := map_toNat_sextets a b c
  have ha := a.toNat_lt
  have hb := b.toNat_lt
  have hc := c.toNat_lt
  simp only [h, List.map_cons, List.map_nil, List.cons.injEq, and_true] at hSextets
  obtain ⟨hw, hx, hy, hz⟩ := hSextets
  apply map_toNat_inj
  rw [map_toNat_octets, hw, hx, hy, hz]
  simp only [List.map_cons, List.map_nil, List.cons.injEq, and_true]
  omega

theorem sextets_octets {a b c w x y z : UInt8} (hw : w.toNat < 64) (hx : x.toNat < 64)
    (hy : y.toNat < 64) (hz : z.toNat < 64) (h : octets w x y z = [a, b, c]) :
    sextets a b c = [w, x, y, z] := by
  have hOctets := map_toNat_octets w x y z
  simp only [h, List.map_cons, List.map_nil, List.cons.injEq, and_true] at hOctets
  obtain ⟨ha, hb, hc⟩ := hOctets
  apply map_toNat_inj
  rw [map_toNat_sextets, ha, hb, hc]
  simp only [List.map_cons, List.map_nil, List.cons.injEq, and_true]
  omega

theorem sextets_lt (a b c : UInt8) : ∀ k ∈ sextets a b c, k.toNat < 64 := by
  have ha := a.toNat_lt
  have hb := b.toNat_lt
  have hc := c.toNat_lt
  rw [← List.forall_mem_map (P := (· < 64)), map_toNat_sextets]
  simp only [List.forall_mem_cons]
  exact ⟨by omega, by omega, by omega, by omega, fun _ h => absurd h List.not_mem_nil⟩

end Bits

section Alphabet

variable {c : Char} {k : UInt8} {text chars : List Char} {l : List UInt8}

theorem mem_facts : ∀ c ∈ base64_chars, (c ≠ '=' ∧ is_base64 c = true) ∧ (find c).toNat < 64 ∧
    base64_chars[(find c).toNat]? = some c := by
  have hAll : (base64_chars.all fun c => decide ((c ≠ '=' ∧ is_base64 c = true) ∧
      (find c).toNat < 64 ∧ base64_chars[(find c).toNat]? = some c)) = true := by
    decide +kernel
  intro c hc
  exact of_decide_eq_true (List.all_eq_true.mp hAll c hc)

theorem find_at : ∀ n < 64, (base64_chars[n]?).map find = some (UInt8.ofNat n) := by
  decide +kernel

theorem find_of_getElem? (hc : base64_chars[k.toNat]? = some c) :
    c ∈ base64_chars ∧ find c = k := by
  obtain ⟨hLt, -⟩ := List.getElem?_eq_some_iff.mp hc
  have hFind := find_at k.toNat hLt
  rw [hc, Option.map_some, UInt8.ofNat_toNat, Option.some.injEq] at hFind
  exact ⟨List.mem_of_getElem? hc, hFind⟩

theorem getElem?_eq_some_iff_find : base64_chars[k.toNat]? = some c ↔
    c ∈ base64_chars ∧ find c = k := by
  refine ⟨find_of_getElem?, ?_⟩
  rintro ⟨hc, rfl⟩
  exact (mem_facts c hc).2.2

/-- The characters of some sextets are those with these positions in the alphabet. -/
theorem at_chars_eq_some_iff : at_chars l = some chars ↔
    (∀ c ∈ chars, c ∈ base64_chars) ∧ chars.map find = l := by
  induction l generalizing chars with
  | nil =>
      rw [at_chars, List.mapM_nil, List.map_eq_nil_iff]
      constructor
      · intro h
        obtain rfl := Option.some.inj h
        exact ⟨fun c hc => absurd hc List.not_mem_nil, rfl⟩
      · rintro ⟨-, rfl⟩
        rfl
  | cons k l ih =>
      rw [at_chars, List.mapM_cons]
      simp only [Option.bind_eq_bind, Option.bind_eq_some_iff, getElem?_eq_some_iff_find]
      constructor
      · rintro ⟨c, ⟨hc, rfl⟩, rest, hRest, hChars⟩
        obtain rfl := Option.some.inj hChars
        obtain ⟨hAll, rfl⟩ := ih.mp hRest
        exact ⟨List.forall_mem_cons.mpr ⟨hc, hAll⟩, rfl⟩
      · rintro ⟨hAll, hFind⟩
        cases chars with
        | nil => cases hFind
        | cons c rest =>
            rw [List.map_cons, List.cons.injEq] at hFind
            rw [List.forall_mem_cons] at hAll
            exact ⟨c, ⟨hAll.1, hFind.1⟩, rest, ih.mpr ⟨hAll.2, hFind.2⟩, rfl⟩

theorem exists_at_chars (h : ∀ k ∈ l, k.toNat < 64) : ∃ chars, at_chars l = some chars := by
  induction l with
  | nil => exact ⟨[], rfl⟩
  | cons k l ih =>
      rw [List.forall_mem_cons] at h
      obtain ⟨chars, hChars⟩ := ih h.2
      obtain ⟨c, hc⟩ : ∃ c, base64_chars[k.toNat]? = some c := ⟨_, List.getElem?_eq_getElem h.1⟩
      rw [at_chars_eq_some_iff] at hChars
      rw [getElem?_eq_some_iff_find] at hc
      refine ⟨c :: chars, at_chars_eq_some_iff.mpr ⟨List.forall_mem_cons.mpr ⟨hc.1, hChars.1⟩, ?_⟩⟩
      rw [List.map_cons, hc.2, hChars.2]

theorem length_of_at_chars (h : at_chars l = some chars) : chars.length = l.length := by
  rw [← (at_chars_eq_some_iff.mp h).2, List.length_map]

end Alphabet

section Loops

variable {bytes ret : List UInt8} {text prior : List Char} {in_len in_ : Int}

/-- The loop of `base64_decode` without its counters. -/
def decode_from : (text char_array_4 : List Char) → (ret : List UInt8) → List UInt8
  | [], char_array_4, ret => decode_rest char_array_4 ret
  | c :: text, char_array_4, ret =>
      if c ≠ '=' ∧ is_base64 c then
        decode_from text (decode_next c char_array_4 ret).1 (decode_next c char_array_4 ret).2
      else decode_rest char_array_4 ret

theorem decode_loop_eq (text prior : List Char) (ret : List UInt8) (hLow : 0 ≤ in_)
    (hLen : in_len = text.length) (hFits : in_ + in_len < 2 ^ 31) :
    decode_loop text in_len in_ prior ret = some (decode_from text prior ret) := by
  induction text generalizing in_len in_ prior ret with
  | nil =>
      rw [List.length_nil] at hLen
      rw [decode_loop, if_neg (by omega), decode_from]
  | cons c text ih =>
      rw [List.length_cons] at hLen
      rw [decode_loop, if_neg (by omega), if_neg (by omega), decode_from]
      split_ifs with hMore hOver
      · omega
      · exact ih _ _ (by omega) (by omega) (by omega)
      · rfl

theorem base64_decode_eq (hFits : text.length < 2 ^ 31) :
    base64_decode text = some (decode_from text [] []) := by
  have hLen : (text.length : Int).bmod (2 ^ 32) = text.length :=
    Int.bmod_eq_of_le (by omega) (by omega)
  rw [base64_decode, hLen]
  exact decode_loop_eq text [] [] (Int.le_refl 0) rfl (by omega)

theorem encode_loop_group (a b c : UInt8) (bytes : List UInt8) (prior : List Char) :
    encode_loop (a :: b :: c :: bytes) [] prior =
      (at_chars (sextets a b c)).bind fun chars => encode_loop bytes [] (prior ++ chars) := by
  cases hChars : at_chars (sextets a b c) <;> simp [encode_loop, encode_next, hChars]

theorem decode_from_cons {c : Char} (hc : c ∈ base64_chars) :
    decode_from (c :: text) prior ret =
      decode_from text (decode_next c prior ret).1 (decode_next c prior ret).2 :=
  if_pos (mem_facts c hc).1

theorem decode_from_group {w x y z : Char} (h : ∀ c ∈ [w, x, y, z], c ∈ base64_chars) :
    decode_from (w :: x :: y :: z :: text) [] ret =
      decode_from text [] (ret ++ octets (find w) (find x) (find y) (find z)) := by
  simp only [List.forall_mem_cons] at h
  rw [decode_from_cons h.1, decode_from_cons h.2.1, decode_from_cons h.2.2.1,
    decode_from_cons h.2.2.2.1]
  rfl

theorem decode_from_pad (text : List Char) : decode_from ('=' :: text) prior ret =
    decode_rest prior ret :=
  if_neg fun h => h.1 rfl

/-- Groups of four characters of the alphabet, of which the last may be padded. The bits that do
not belong to a byte are zero. -/
inductive Canonical : List Char → Prop
  | nil : Canonical []
  | one {w x : Char} : w ∈ base64_chars → x ∈ base64_chars → (find x).toNat % 16 = 0 →
      Canonical [w, x, '=', '=']
  | two {w x y : Char} : w ∈ base64_chars → x ∈ base64_chars → y ∈ base64_chars →
      (find y).toNat % 4 = 0 → Canonical [w, x, y, '=']
  | group {w x y z : Char} {text : List Char} : (∀ c ∈ [w, x, y, z], c ∈ base64_chars) →
      Canonical text → Canonical (w :: x :: y :: z :: text)

/-- The padding is read as bits that are dropped again. -/
theorem canonical_one {a : UInt8} {chars : List Char}
    (h : at_chars ((sextets a 0 0).take 2) = some chars) :
    Canonical (chars ++ ['=', '=']) ∧
      ∀ ret, decode_from (chars ++ ['=', '=']) [] ret = ret ++ [a] := by
  obtain ⟨hAll, hFind⟩ := at_chars_eq_some_iff.mp h
  obtain ⟨w, x, rfl⟩ : ∃ w x, chars = [w, x] := List.length_eq_two.mp (length_of_at_chars h)
  simp only [List.forall_mem_cons] at hAll
  obtain ⟨y, z, hSextets⟩ : ∃ y z, sextets a 0 0 = [find w, find x, y, z] := ⟨_, _, by
    rw [← List.take_append_drop 2 (sextets a 0 0), ← hFind]
    rfl⟩
  have hBits := map_toNat_sextets a 0 0
  simp only [hSextets, List.map_cons, List.cons.injEq] at hBits
  refine ⟨.one hAll.1 hAll.2.1 (by rw [hBits.2.1]; simp), fun ret => ?_⟩
  rw [List.cons_append, List.cons_append, decode_from_cons hAll.1, decode_from_cons hAll.2.1,
    List.nil_append, decode_from_pad]
  exact congrArg (fun l : List UInt8 => ret ++ l.take 1) (octets_sextets hSextets)

theorem canonical_two {a b : UInt8} {chars : List Char}
    (h : at_chars ((sextets a b 0).take 3) = some chars) :
    Canonical (chars ++ ['=']) ∧
      ∀ ret, decode_from (chars ++ ['=']) [] ret = ret ++ [a, b] := by
  obtain ⟨hAll, hFind⟩ := at_chars_eq_some_iff.mp h
  obtain ⟨w, x, y, rfl⟩ : ∃ w x y, chars = [w, x, y] :=
    List.length_eq_three.mp (length_of_at_chars h)
  simp only [List.forall_mem_cons] at hAll
  obtain ⟨z, hSextets⟩ : ∃ z, sextets a b 0 = [find w, find x, find y, z] := ⟨_, by
    rw [← List.take_append_drop 3 (sextets a b 0), ← hFind]
    rfl⟩
  have hBits := map_toNat_sextets a b 0
  simp only [hSextets, List.map_cons, List.cons.injEq] at hBits
  refine ⟨.two hAll.1 hAll.2.1 hAll.2.2.1 (by rw [hBits.2.2.1]; simp), fun ret => ?_⟩
  rw [List.cons_append, List.cons_append, List.cons_append, decode_from_cons hAll.1,
    decode_from_cons hAll.2.1, decode_from_cons hAll.2.2.1, List.nil_append, decode_from_pad]
  exact congrArg (fun l : List UInt8 => ret ++ l.take 2) (octets_sextets hSextets)

/-- What is written is canonical, and reads back as the bytes. -/
theorem canonical_of_encode_loop : ∀ (bytes : List UInt8) (prior text : List Char),
    encode_loop bytes [] prior = some text → ∃ chars, text = prior ++ chars ∧ Canonical chars ∧
      ∀ ret, decode_from chars [] ret = ret ++ bytes
  | [], prior, text, h => by
      obtain rfl := Option.some.inj h
      exact ⟨[], (List.append_nil _).symm, .nil, fun ret => (List.append_nil ret).symm⟩
  | [a], prior, text, h => by
      obtain ⟨chars, hChars, hText⟩ := Option.bind_eq_some_iff.mp h
      obtain rfl := Option.some.inj hText
      exact ⟨chars ++ ['=', '='], List.append_assoc _ _ _, canonical_one hChars⟩
  | [a, b], prior, text, h => by
      obtain ⟨chars, hChars, hText⟩ := Option.bind_eq_some_iff.mp h
      obtain rfl := Option.some.inj hText
      exact ⟨chars ++ ['='], List.append_assoc _ _ _, canonical_two hChars⟩
  | a :: b :: c :: bytes, prior, text, h => by
      rw [encode_loop_group, Option.bind_eq_some_iff] at h
      obtain ⟨chars, hChars, hRest⟩ := h
      obtain ⟨rest, rfl, hCanonical, hDecode⟩ := canonical_of_encode_loop bytes _ text hRest
      obtain ⟨hAll, hFind⟩ := at_chars_eq_some_iff.mp hChars
      obtain ⟨w, x, y, z, rfl⟩ : ∃ w x y z, chars = [w, x, y, z] :=
        List.length_eq_four.mp (length_of_at_chars hChars)
      refine ⟨w :: x :: y :: z :: rest, List.append_assoc _ _ _, .group hAll hCanonical, ?_⟩
      intro ret
      rw [decode_from_group hAll, hDecode, octets_sextets hFind.symm, List.append_assoc]
      rfl

theorem find_lt {c : Char} (hc : c ∈ base64_chars) : (find c).toNat < 64 := (mem_facts c hc).2.1

/-- Every canonical text is written for some bytes. -/
theorem encode_loop_of_canonical (h : Canonical text) :
    ∃ bytes, ∀ prior, encode_loop bytes [] prior = some (prior ++ text) := by
  induction h with
  | nil => exact ⟨[], fun prior => congrArg some (List.append_nil prior).symm⟩
  | @one w x hw hx hZero =>
      obtain ⟨a, hOctets⟩ : ∃ a, octets (find w) (find x) 0 0 = [a, 0, 0] := by
        refine ⟨(find w <<< 2) + ((find x &&& 0x30) >>> 4), map_toNat_inj ?_⟩
        have hBits := map_toNat_octets (find w) (find x) 0 0
        simp only [octets, List.map_cons, List.cons.injEq] at hBits ⊢
        refine ⟨trivial, ?_, ?_, trivial⟩
        · rw [hBits.2.1, hZero]
          rfl
        · exact hBits.2.2.1
      have hSextets := sextets_octets (find_lt hw) (find_lt hx) (by decide) (by decide) hOctets
      have hChars : at_chars ((sextets a 0 0).take 2) = some [w, x] :=
        at_chars_eq_some_iff.mpr ⟨by simp [hw, hx], congrArg (List.take 2) hSextets.symm⟩
      refine ⟨[a], fun prior => ?_⟩
      show encode_rest [a] prior = _
      rw [encode_rest, hChars, Option.bind_eq_bind, Option.bind_some, List.append_assoc]
      rfl
  | @two w x y hw hx hy hZero =>
      obtain ⟨a, b, hOctets⟩ : ∃ a b, octets (find w) (find x) (find y) 0 = [a, b, 0] := by
        refine ⟨(find w <<< 2) + ((find x &&& 0x30) >>> 4),
          ((find x &&& 0xf) <<< 4) + ((find y &&& 0x3c) >>> 2), map_toNat_inj ?_⟩
        have hBits := map_toNat_octets (find w) (find x) (find y) 0
        simp only [octets, List.map_cons, List.cons.injEq] at hBits ⊢
        refine ⟨trivial, trivial, ?_, trivial⟩
        rw [hBits.2.2.1, hZero]
        rfl
      have hSextets := sextets_octets (find_lt hw) (find_lt hx) (find_lt hy) (by decide) hOctets
      have hChars : at_chars ((sextets a b 0).take 3) = some [w, x, y] :=
        at_chars_eq_some_iff.mpr ⟨by simp [hw, hx, hy], congrArg (List.take 3) hSextets.symm⟩
      refine ⟨[a, b], fun prior => ?_⟩
      show encode_rest [a, b] prior = _
      rw [encode_rest, hChars, Option.bind_eq_bind, Option.bind_some, List.append_assoc]
      rfl
  | @group w x y z text hAll _ ih =>
      obtain ⟨bytes, hBytes⟩ := ih
      have hMem := hAll
      simp only [List.forall_mem_cons] at hMem
      obtain ⟨a, b, c, hOctets⟩ : ∃ a b c, octets (find w) (find x) (find y) (find z) = [a, b, c] :=
        ⟨_, _, _, rfl⟩
      have hSextets := sextets_octets (find_lt hMem.1) (find_lt hMem.2.1) (find_lt hMem.2.2.1)
        (find_lt hMem.2.2.2.1) hOctets
      refine ⟨a :: b :: c :: bytes, fun prior => ?_⟩
      have hChars : at_chars (sextets a b c) = some [w, x, y, z] :=
        at_chars_eq_some_iff.mpr ⟨hAll, hSextets.symm⟩
      rw [encode_loop_group, hChars, Option.bind_some, hBytes, List.append_assoc]
      rfl

/-- The bytes can always be written. -/
theorem exists_encode_loop : ∀ (bytes : List UInt8) (prior : List Char),
    ∃ chars, encode_loop bytes [] prior = some (prior ++ chars) ∧
      chars.length = 4 * ((bytes.length + 2) / 3)
  | [], prior => ⟨[], congrArg some (List.append_nil prior).symm, rfl⟩
  | [a], prior => by
      obtain ⟨chars, hChars⟩ := exists_at_chars (l := (sextets a 0 0).take 2) fun k hk =>
        sextets_lt a 0 0 k (List.mem_of_mem_take hk)
      refine ⟨chars ++ ['=', '='], ?_, ?_⟩
      · show encode_rest [a] prior = _
        rw [encode_rest, hChars, Option.bind_eq_bind, Option.bind_some, List.append_assoc]
        rfl
      · simp [length_of_at_chars hChars, sextets]
  | [a, b], prior => by
      obtain ⟨chars, hChars⟩ := exists_at_chars (l := (sextets a b 0).take 3) fun k hk =>
        sextets_lt a b 0 k (List.mem_of_mem_take hk)
      refine ⟨chars ++ ['='], ?_, ?_⟩
      · show encode_rest [a, b] prior = _
        rw [encode_rest, hChars, Option.bind_eq_bind, Option.bind_some, List.append_assoc]
        rfl
      · simp [length_of_at_chars hChars, sextets]
  | a :: b :: c :: bytes, prior => by
      obtain ⟨chars, hChars⟩ := exists_at_chars (sextets_lt a b c)
      obtain ⟨rest, hRest, hLength⟩ := exists_encode_loop bytes (prior ++ chars)
      refine ⟨chars ++ rest, ?_, ?_⟩
      · rw [encode_loop_group, hChars, Option.bind_some, hRest, List.append_assoc]
      · rw [List.length_append, length_of_at_chars hChars, hLength, List.length_cons,
          List.length_cons, List.length_cons]
        simp only [sextets, List.length_cons, List.length_nil]
        omega

end Loops

/-- Bytes are written as four characters for each three of them, and are read back. -/
theorem base64_decode_encode (bytes : List UInt8)
    (hFits : 4 * ((bytes.length + 2) / 3) < 2 ^ 31) :
    ∃ text, base64_encode bytes = some text ∧ text.length = 4 * ((bytes.length + 2) / 3) ∧
      base64_decode text = some bytes := by
  obtain ⟨text, hText, hLength⟩ := exists_encode_loop bytes []
  rw [List.nil_append] at hText
  obtain ⟨chars, hChars, -, hDecode⟩ := canonical_of_encode_loop bytes [] text hText
  obtain rfl : text = chars := hChars
  refine ⟨text, hText, hLength, ?_⟩
  rw [base64_decode_eq (by rw [hLength]; exact hFits), hDecode, List.nil_append]

theorem base64_decode_encode_man : base64_decode ['T', 'W', 'F', 'u'] = some [77, 97, 110] := by
  obtain ⟨text, hText, -, hDecode⟩ := base64_decode_encode [77, 97, 110] (by decide)
  have hMan : base64_encode [77, 97, 110] = some ['T', 'W', 'F', 'u'] := by decide
  rwa [← Option.some.inj (hMan.symm.trans hText)] at hDecode

end CppPerf.Text.Base64
