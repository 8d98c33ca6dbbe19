import CppPerf.Arrays.PartialSum
import CppPerf.Semantics.RingWindow
import Mathlib.Data.List.Infix

/-! `decodeAtIndex` of `stack.cpp`. The stack is a list with its top in front. Taking from an empty
stack and dividing by zero fail. -/
namespace CppPerf.Strings.DecodeAtIndex

open Text Arrays

/-- Conversion to `long long`. -/
def long_long (x : Int) : Int := x.bmod (2 ^ 64)

/-- `c - '0'`. -/
def multiple (c : Char) : Int := c.toNat - '0'.toNat

/-- The loop over `S`. -/
def decode_from (K : Int) : (S : List Char) → (count : Int) → (decode : List Char) →
    Int × List Char
  | [], count, decode => (count, decode)
  | c :: S, count, decode =>
      let count := if c.isDigit then long_long (count * multiple c) else long_long (count + 1)
      if count ≥ K then (count, c :: decode) else decode_from K S count (c :: decode)

/-- The new `count` and `K`. -/
def update_count (multi count K : Int) : Option (Int × Int) :=
  if multi = 0 then none
  else
    let count := count.tdiv multi
    if count = 0 then none
    else
      let K := int (K.tmod count)
      some (count, if K = 0 then int count else K)

/-- The loop that goes back as long as `count` is above `K`. -/
def go_back : (decode : List Char) → (count K : Int) → Option (List Char × Int × Int)
  | [], count, K => if count > K then none else some ([], count, K)
  | c :: decode, count, K =>
      if count > K then
        if c.isDigit then do
          let (count, K) ← update_count (multiple c) count K
          go_back decode count K
        else go_back decode (long_long (count - 1)) K
      else some (c :: decode, count, K)

/-- The loop over the digits that are left on the top. -/
def skip_digits : (decode : List Char) → (count K : Int) → Option (List Char)
  | [], _, _ => none
  | c :: decode, count, K =>
      if c.isDigit then do
        let (count, K) ← update_count (multiple c) count K
        skip_digits decode count K
      else some [c]

def decodeAtIndex (S : List Char) (K : Int) : Option (List Char) := do
  let (count, decode) := decode_from K S 0 []
  let (decode, count, K) ← go_back decode count K
  skip_digits decode count K

/-- What a letter or a digit does with what is decoded so far. -/
def expand_next (decoded : List Char) (c : Char) : List Char :=
  if c.isDigit then (List.replicate (multiple c).toNat decoded).flatten else decoded ++ [c]

def expand (S : List Char) : List Char := S.foldl expand_next []

variable {α : Type} {l : List α} {S P Q decode : List Char} {c answer : Char} {count K : Int}
  {n i : Nat}

theorem length_flatten_replicate (n : Nat) (l : List α) :
    (List.replicate n l).flatten.length = n * l.length := by
  rw [List.length_flatten, List.map_replicate, List.sum_replicate_nat]

/-- A position in copies is a position in what is copied. -/
theorem getElem?_flatten_replicate (hi : i < n * l.length) :
    (List.replicate n l).flatten[i]? = l[i % l.length]? := by
  induction n generalizing i with
  | zero => omega
  | succ n ih =>
      rw [List.replicate_succ, List.flatten_cons, List.getElem?_append]
      split_ifs with hFirst
      · rw [Nat.mod_eq_of_lt hFirst]
      · rw [Nat.succ_mul] at hi
        rw [ih (by omega), ← Nat.mod_eq_sub_mod (by omega)]

theorem expand_append_singleton (P : List Char) (c : Char) :
    expand (P ++ [c]) = expand_next (expand P) c := by
  rw [expand, List.foldl_append]
  rfl

theorem multiple_bounds (hDigit : c.isDigit = true) (hZero : c ≠ '0') :
    1 ≤ multiple c ∧ multiple c ≤ 9 := by
  rw [Char.isDigit, Bool.and_eq_true, decide_eq_true_eq, decide_eq_true_eq] at hDigit
  have hBounds : 48 ≤ c.toNat ∧ c.toNat ≤ 57 := hDigit
  have hNe : c.toNat ≠ 48 := fun hEq => hZero (Char.toNat_inj.mp hEq)
  have hCode : multiple c = c.toNat - 48 := rfl
  omega

theorem prefix_expand_next (decoded : List Char) (hZero : c ≠ '0') :
    decoded <+: expand_next decoded c := by
  rw [expand_next]
  split_ifs with hDigit
  · have hBounds := multiple_bounds hDigit hZero
    obtain ⟨m, hm⟩ := Nat.exists_eq_add_of_le' (show 1 ≤ (multiple c).toNat by omega)
    rw [hm, List.replicate_succ, List.flatten_cons]
    exact List.prefix_append _ _
  · exact List.prefix_append _ _

theorem prefix_expand (P : List Char) (hZero : ∀ c ∈ Q, c ≠ '0') :
    expand P <+: expand (P ++ Q) := by
  induction Q generalizing P with
  | nil => rw [List.append_nil]
  | cons c Q ih =>
      rw [List.forall_mem_cons] at hZero
      have hNext := ih (P ++ [c]) hZero.2
      rw [List.append_assoc, List.singleton_append, expand_append_singleton] at hNext
      exact (prefix_expand_next (expand P) hZero.1).trans hNext

/-- The stack holds a part of `S`, of which `count` is the length when it is decoded, and position
`K` of that is still the one that is looked for. -/
structure Finds (answer : Char) (decode : List Char) (count K : Int) : Prop where
  count_eq : count = (expand decode.reverse).length
  low : 1 ≤ K
  high : K ≤ count
  int : K < 2 ^ 31
  fits : count < 2 ^ 63
  answer : (expand decode.reverse)[(K - 1).toNat]? = some answer

theorem expand_reverse_cons (c : Char) (decode : List Char) :
    expand (c :: decode).reverse = expand_next (expand decode.reverse) c := by
  rw [List.reverse_cons, expand_append_singleton]

/-- A letter on the top is not the one that is looked for unless `K` is at the end. -/
theorem Finds.letter (h : Finds answer (c :: decode) count K) (hLetter : c.isDigit = false)
    (hMore : count > K) :
    Finds answer decode (long_long (count - 1)) K := by
  have hExpand : expand (c :: decode).reverse = expand decode.reverse ++ [c] := by
    rw [expand_reverse_cons, expand_next, if_neg (by rw [hLetter]; exact Bool.false_ne_true)]
  have hCount := h.count_eq
  have hAnswer := h.answer
  have hLow := h.low
  have hFits := h.fits
  rw [hExpand, List.length_append, List.length_singleton] at hCount
  have hLess : long_long (count - 1) = count - 1 := Int.bmod_eq_of_le (by omega) (by omega)
  rw [hLess]
  refine ⟨by omega, hLow, by omega, h.int, by omega, ?_⟩
  rwa [hExpand, List.getElem?_append_left (by omega)] at hAnswer

theorem Finds.letter_answer (h : Finds answer (c :: decode) K K) (hLetter : c.isDigit = false) :
    answer = c := by
  have hCount := h.count_eq
  have hAnswer := h.answer
  rw [expand_reverse_cons, expand_next, if_neg (by rw [hLetter]; exact Bool.false_ne_true)]
    at hCount hAnswer
  rw [List.length_append, List.length_singleton] at hCount
  rw [List.getElem?_append_right (by omega), show (K - 1).toNat - _ = 0 by omega] at hAnswer
  exact (Option.some.inj hAnswer).symm

/-- `K` modulo the length of one copy, from 1 on. -/
theorem update_count_eq {multi : Int} {length k : Nat} (hMulti : multi ≠ 0) (hLength : 0 < length)
    (hInt : k + 1 < 2 ^ 31) :
    update_count multi (length * multi) (k + 1 : Nat) =
      some ((length : Int), ((k % length + 1 : Nat) : Int)) := by
  have hLe : (k + 1) % length ≤ k + 1 := Nat.mod_le _ _
  have hTmod : ((k + 1 : Nat) : Int).tmod length = ((k + 1) % length : Nat) := rfl
  rw [update_count, if_neg hMulti, Int.mul_tdiv_cancel _ hMulti]
  simp only [hTmod]
  rw [if_neg (by omega), int_eq_self (by omega) (by omega)]
  rcases Ring.succ_mod_cases k hLength with ⟨hZero, hWhole⟩ | ⟨hNext, -⟩
  · have hSmall : length ≤ k + 1 := Nat.le_of_dvd (Nat.succ_pos k) (Nat.dvd_of_mod_eq_zero hZero)
    rw [hZero, hWhole, if_pos Nat.cast_zero, int_eq_self (by omega) (by omega)]
  · rw [hNext, if_neg (by omega)]

/-- A digit on the top is undone. -/
theorem Finds.digit (h : Finds answer (c :: decode) count K) (hDigit : c.isDigit = true)
    (hZero : c ≠ '0') :
    ∃ count' K', update_count (multiple c) count K = some (count', K') ∧
      Finds answer decode count' K' ∧ (count = K → count' = K') := by
  have hMultiple := multiple_bounds hDigit hZero
  obtain ⟨m, hm⟩ := Int.eq_ofNat_of_zero_le (show 0 ≤ multiple c by omega)
  have hExpand : expand (c :: decode).reverse =
      (List.replicate m (expand decode.reverse)).flatten := by
    rw [expand_reverse_cons, expand_next, if_pos hDigit, hm, Int.toNat_natCast]
  have hCount := h.count_eq
  have hAnswer := h.answer
  have hHigh := h.high
  have hInt := h.int
  have hFits := h.fits
  obtain ⟨k, rfl⟩ : ∃ k : Nat, K = (k + 1 : Nat) := ⟨(K - 1).toNat, by have := h.low; omega⟩
  have hIndex : (((k + 1 : Nat) : Int) - 1).toNat = k := by omega
  rw [hExpand, length_flatten_replicate] at hCount
  have hInside : k < m * (expand decode.reverse).length := by omega
  have hLength : 0 < (expand decode.reverse).length :=
    Nat.pos_of_mul_pos_left (Nat.zero_lt_of_lt hInside)
  rw [hExpand, hIndex, getElem?_flatten_replicate hInside] at hAnswer
  have hLt := Nat.mod_lt k hLength
  have hLe := Nat.mod_le k (expand decode.reverse).length
  have hShorter : (expand decode.reverse).length ≤ m * (expand decode.reverse).length :=
    Nat.le_mul_of_pos_left _ (by omega)
  refine ⟨_, ((k % (expand decode.reverse).length + 1 : Nat) : Int), ?_,
    ⟨rfl, by omega, by omega, by omega, by omega, ?_⟩, fun hLast => ?_⟩
  · rw [hCount, Nat.cast_mul, Int.mul_comm, ← hm]
    exact update_count_eq (by omega) hLength (by omega)
  · rw [show (((k % (expand decode.reverse).length + 1 : Nat) : Int) - 1).toNat =
      k % (expand decode.reverse).length by omega]
    exact hAnswer
  · -- At the end of the last copy it is the end of the first one.
    rcases Ring.succ_mod_cases k hLength with ⟨-, hWhole⟩ | ⟨hNext, -⟩
    · exact congrArg _ hWhole.symm
    · rw [show k + 1 = m * (expand decode.reverse).length by omega, Nat.mul_mod_left] at hNext
      omega

theorem Finds.ne_nil (h : Finds answer decode count K) : decode ≠ [] := by
  rintro rfl
  have hCount : count = 0 := h.count_eq
  have hLow := h.low
  have hHigh := h.high
  omega

theorem go_back_spec (h : Finds answer decode count K) (hZero : ∀ c ∈ decode, c ≠ '0') :
    ∃ decode' K', go_back decode count K = some (decode', K', K') ∧
      Finds answer decode' K' K' ∧ ∀ c ∈ decode', c ≠ '0' := by
  induction decode generalizing count K with
  | nil => exact absurd rfl h.ne_nil
  | cons c decode ih =>
      rw [go_back]
      by_cases hMore : count > K
      · rw [if_pos hMore]
        rw [List.forall_mem_cons] at hZero
        cases hDigit : c.isDigit with
        | true =>
            obtain ⟨count', K', hUpdate, hNext, -⟩ := h.digit hDigit hZero.1
            rw [if_pos rfl, hUpdate, Option.bind_eq_bind, Option.bind_some]
            exact ih hNext hZero.2
        | false =>
            rw [if_neg Bool.false_ne_true]
            exact ih (h.letter hDigit hMore) hZero.2
      · have hHigh := h.high
        obtain rfl : count = K := by omega
        rw [if_neg hMore]
        exact ⟨c :: decode, count, rfl, h, hZero⟩

theorem skip_digits_spec (h : Finds answer decode K K) (hZero : ∀ c ∈ decode, c ≠ '0') :
    skip_digits decode K K = some [answer] := by
  induction decode generalizing K with
  | nil => exact absurd rfl h.ne_nil
  | cons c decode ih =>
      rw [skip_digits]
      rw [List.forall_mem_cons] at hZero
      cases hDigit : c.isDigit with
      | true =>
          obtain ⟨count', K', hUpdate, hNext, hLast⟩ := h.digit hDigit hZero.1
          obtain rfl := hLast rfl
          rw [if_pos rfl, hUpdate, Option.bind_eq_bind, Option.bind_some]
          exact ih hNext hZero.2
      | false => rw [if_neg Bool.false_ne_true, h.letter_answer hDigit]

/-- The length of what is decoded does not overflow as long as it is below `K`. -/
theorem count_next (hCount : count = (expand decode.reverse).length) (hLess : count < K)
    (hInt : K < 2 ^ 31) (hZero : c ≠ '0') :
    (if c.isDigit then long_long (count * multiple c) else long_long (count + 1)) =
      (expand (c :: decode).reverse).length ∧ (expand (c :: decode).reverse).length < 2 ^ 63 := by
  rw [expand_reverse_cons, expand_next]
  cases hDigit : c.isDigit with
  | true =>
      have hMultiple := multiple_bounds hDigit hZero
      have hProduct : count * multiple c ≤ count * 9 :=
        Int.mul_le_mul_of_nonneg_left hMultiple.2 (by omega)
      have hNonneg : 0 ≤ count * multiple c := Int.mul_nonneg (by omega) (by omega)
      have hLength : (((multiple c).toNat * (expand decode.reverse).length : Nat) : Int) =
          count * multiple c := by
        rw [Nat.cast_mul, Int.toNat_of_nonneg (by omega), ← hCount, Int.mul_comm]
      rw [if_pos rfl, if_pos rfl, length_flatten_replicate, hLength]
      exact ⟨Int.bmod_eq_of_le (by omega) (by omega), by omega⟩
  | false =>
      rw [if_neg Bool.false_ne_true, if_neg Bool.false_ne_true, List.length_append,
        List.length_singleton, Nat.cast_add, ← hCount]
      exact ⟨Int.bmod_eq_of_le (by omega) (by omega), by omega⟩

theorem decode_from_spec (hZero : ∀ c ∈ S, c ≠ '0') (hStack : ∀ c ∈ decode, c ≠ '0')
    (hCount : count = (expand decode.reverse).length) (hLess : count < K) (hLow : 1 ≤ K)
    (hInt : K < 2 ^ 31)
    (hAnswer : (expand (decode.reverse ++ S))[(K - 1).toNat]? = some answer) :
    ∃ count' decode', decode_from K S count decode = (count', decode') ∧
      Finds answer decode' count' K ∧ ∀ c ∈ decode', c ≠ '0' := by
  induction S generalizing count decode with
  | nil =>
      obtain ⟨hLt, -⟩ := List.getElem?_eq_some_iff.mp hAnswer
      rw [List.append_nil] at hLt
      omega
  | cons c S ih =>
      rw [List.forall_mem_cons] at hZero
      obtain ⟨hNext, hFits⟩ := count_next hCount hLess hInt hZero.1
      have hAll : ∀ d ∈ c :: decode, d ≠ '0' := List.forall_mem_cons.mpr ⟨hZero.1, hStack⟩
      have hSplit : decode.reverse ++ c :: S = (c :: decode).reverse ++ S := by simp
      rw [decode_from, hNext]
      rw [hSplit] at hAnswer
      by_cases hEnough : ((expand (c :: decode).reverse).length : Int) ≥ K
      · simp only [hEnough, if_true]
        refine ⟨_, _, rfl, ⟨rfl, hLow, hEnough, hInt, by omega, ?_⟩, hAll⟩
        obtain ⟨later, hLater⟩ := prefix_expand (c :: decode).reverse hZero.2
        rwa [← hLater, List.getElem?_append_left (by omega)] at hAnswer
      · simp only [hEnough, if_false]
        exact ih hZero.2 hAll rfl (by omega) hAnswer

/-- The character at `K` of the expanded string, which is never built. There may be any
characters but the digit 0. -/
theorem decodeAtIndex_spec (S : List Char) (K : Int) (hZero : ∀ c ∈ S, c ≠ '0') (hLow : 1 ≤ K)
    (hInt : K < 2 ^ 31) (hLength : K ≤ (expand S).length) :
    ∃ c, (expand S)[(K - 1).toNat]? = some c ∧ decodeAtIndex S K = some [c] := by
  have hAnswer := List.getElem?_eq_getElem (show (K - 1).toNat < (expand S).length by omega)
  refine ⟨_, hAnswer, ?_⟩
  obtain ⟨count, decode, hRead, hFinds, hStack⟩ :=
    decode_from_spec hZero (fun c hc => absurd hc List.not_mem_nil) (Int.natCast_zero).symm
      (by omega) hLow hInt hAnswer
  obtain ⟨last, K', hBack, hLast, hDigits⟩ := go_back_spec hFinds hStack
  rw [decodeAtIndex, hRead]
  simp only [hBack, Option.bind_eq_bind, Option.bind_some]
  exact skip_digits_spec hLast hDigits

theorem decodeAtIndex_spec_ha : decodeAtIndex ['h', 'a', '2', '2'] 5 = some ['h'] := by
  obtain ⟨c, hAt, hRun⟩ := decodeAtIndex_spec ['h', 'a', '2', '2'] 5 (by simp) (by decide)
    (by decide) (by decide)
  have hFifth : (expand ['h', 'a', '2', '2'])[4]? = some 'h' := by decide
  obtain rfl : 'h' = c := Option.some.inj (hFifth.symm.trans hAt)
  exact hRun

end CppPerf.Strings.DecodeAtIndex
