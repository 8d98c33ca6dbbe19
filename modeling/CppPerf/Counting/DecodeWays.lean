import CppPerf.Semantics.Segmentation
import Mathlib.Data.Bool.AllAny
import Mathlib.Data.Nat.ModEq
import Mathlib.Data.Nat.Notation

/-! The decodings of `decodeways.cpp`. The numbers of ways are natural numbers: those of
`numDecodings2` stay below `10 ^ 10`, which a `long long` can hold. -/
namespace CppPerf.Counting.DecodeWays

/-- `current`, `prev` and `prev_prev` -/
structure Ways where
  current : Nat
  prev : Nat
  prev_prev : Nat

/-- Two characters, which are given by their codes, as a number. -/
def val_2digit (c1 c2 : Nat) : Int := ((c1 : Int) - '0'.toNat) * 10 + c2 - '0'.toNat

/-- One round of the loop, with the character before the scanner's. -/
def numDecodings_step (w : Ways) (behind c : Char) : Ways :=
  let prev_prev := w.prev
  let prev := w.current
  if c = '0' then ⟨0, prev, prev_prev⟩
  else if val_2digit c.toNat behind.toNat < 27 then ⟨prev + prev_prev, prev, prev_prev⟩
  else ⟨prev, prev, prev_prev⟩

/-- The loop over the characters in front of `behind`, the nearest first. -/
def scan (step : Ways → Char → Char → Ways) (w : Ways) (behind : Char) : List Char → Ways
  | [] => w
  | c :: front => scan step (step w behind c) c front

/-- The last character of the empty string is not there. -/
def numDecodings (s : List Char) : Option Nat :=
  match s.reverse with
  | [] => none
  | c :: front =>
      some (scan numDecodings_step ⟨if c = '0' then 0 else 1, 1, 0⟩ c front).current

def MOD : Nat := 1000000007

def get_count (c : Char) : Nat :=
  if c = '0' then 0 else if c = '*' then 9 else 1

def get_count2 (c : Nat) : Nat :=
  if c = '1'.toNat then 9 else if c = '2'.toNat then 6 else 0

def get_count_wild (prev_prev prev c1 c2 : Nat) : Nat :=
  let ways :=
    if c2 = '*'.toNat then get_count2 c1 * prev_prev
    else if val_2digit c1 c2 < 27 then prev_prev
    else 0
  (ways + prev) % MOD

def numDecodings2_step (w : Ways) (behind c : Char) : Ways :=
  let prev_prev := w.prev
  let prev := w.current
  let current :=
    if c = '0' then 0
    else if c = '*' then
      ((List.range' 1 9).map fun i =>
        get_count_wild prev_prev prev (i + '0'.toNat) behind.toNat).sum
    else get_count_wild prev_prev prev c.toNat behind.toNat
  ⟨current % MOD, prev, prev_prev⟩

def numDecodings2 (s : List Char) : Option Nat :=
  match s.reverse with
  | [] => none
  | c :: front => some (scan numDecodings2_step ⟨get_count c, 1, 0⟩ c front).current

/-! Decodings with wildcards are those of all replacements. -/

open Segmentation Enumeration

def digits : List Char := "0123456789".toList

/-- What a character can stand for. -/
def choices (c : Char) : List Char := if c = '*' then "123456789".toList else [c]

/-- Each `*` is replaced by a digit from 1 to 9. -/
def Expands (s t : List Char) : Prop := List.Forall₂ (fun d c => d ∈ choices c) t s

/-- The digits of a number from 1 to 26, without a leading zero. -/
def IsNumber (p : List Char) : Prop := ∃ n, 1 ≤ n ∧ n ≤ 26 ∧ p = Nat.toDigits 10 n

theorem isNumber_iff (p : List Char) :
    IsNumber p ↔ p ∈ (List.range' 1 26).map (Nat.toDigits 10) := by
  simp only [IsNumber, List.mem_map, List.mem_range'_1]
  refine exists_congr fun n => ?_
  rw [and_assoc, eq_comm]
  exact and_congr_right fun _ => and_congr_left fun _ => by omega

instance : DecidablePred IsNumber := fun p => decidable_of_iff _ (isNumber_iff p).symm

theorem length_of_isNumber (p : List Char) (h : IsNumber p) : p.length = 1 ∨ p.length = 2 := by
  have hAll : ∀ p ∈ (List.range' 1 26).map (Nat.toDigits 10), p.length = 1 ∨ p.length = 2 := by
    decide
  exact hAll p ((isNumber_iff p).mp h)

/-- Whether one digit is a number, and two. -/
def one (c : Char) : Nat := if IsNumber [c] then 1 else 0
def two (c d : Char) : Nat := if IsNumber [c, d] then 1 else 0

/-- The same for all replacements. -/
def sumOne (x : Char) : Nat := ((choices x).map one).sum
def sumTwo (x y : Char) : Nat :=
  ((choices y).map fun d => ((choices x).map (two · d)).sum).sum

section Loop

variable {step : Ways → Char → Char → Ways} {one : Char → Nat} {two : Char → Char → Nat}
  {known : List Char} {m : Nat} {c d : Char} {w : Ways}

/-- What a round adds to a count of segmentations. -/
structure Counts (step : Ways → Char → Char → Ways) (one : Char → Nat) (two : Char → Char → Nat)
    (known : List Char) (m : Nat) : Prop where
  current : ∀ {w c d}, c ∈ known → d ∈ known →
    (step w d c).current ≡ one c * w.current + two c d * w.prev [MOD m]
  prev : ∀ {w c d}, (step w d c).prev = w.current

theorem Counts.scan (hStep : Counts step one two known m) {front l : List Char}
    (hFront : ∀ x ∈ front, x ∈ known) (hc : c ∈ known)
    (hCurrent : w.current ≡ count one two (c :: l) [MOD m])
    (hPrev : w.prev ≡ count one two l [MOD m]) :
    (scan step w c front).current ≡ count one two (front.reverse ++ c :: l) [MOD m] := by
  induction front generalizing w c l with
  | nil => exact hCurrent
  | cons d front ih =>
      rw [List.forall_mem_cons] at hFront
      rw [DecodeWays.scan, List.reverse_cons, List.append_assoc]
      apply ih hFront.2 hFront.1
      · exact (hStep.current hFront.1 hc).trans
          ((hCurrent.mul_left _).add (hPrev.mul_left _))
      · rw [hStep.prev]
        exact hCurrent

end Loop

section Plain

variable {c d : Char}

theorem one_eq (hc : c ∈ digits) : one c = if c = '0' then 0 else 1 := by
  have hAll : ∀ c ∈ digits, one c = if c = '0' then 0 else 1 :=
    List.all_iff_forall_prop.mp (by decide)
  exact hAll c hc

theorem two_eq (hc : c ∈ digits) (hd : d ∈ digits) :
    two c d = if c = '0' then 0 else if val_2digit c.toNat d.toNat < 27 then 1 else 0 := by
  have hAll : digits.all (fun c => digits.all fun d => two c d =
      if c = '0' then 0 else if val_2digit c.toNat d.toNat < 27 then 1 else 0) = true := by decide
  exact List.all_iff_forall_prop.mp (List.all_eq_true.mp hAll c hc) d hd

theorem counts_numDecodings_step : Counts numDecodings_step one two digits 0 where
  current := by
    intro w c d hc hd
    rw [Nat.modEq_zero_iff, one_eq hc, two_eq hc hd, numDecodings_step]
    split_ifs <;> simp
  prev := by
    intro w c d
    rw [numDecodings_step]
    split_ifs <;> rfl

theorem numDecodings_eq_count {t : List Char} (hNe : t ≠ []) (hDigits : ∀ c ∈ t, c ∈ digits) :
    numDecodings t = some (count one two t) := by
  obtain ⟨front, c, rfl⟩ := (List.eq_nil_or_concat' t).resolve_left hNe
  simp only [List.forall_mem_append, List.forall_mem_singleton] at hDigits
  have hFront : ∀ x ∈ front.reverse, x ∈ digits := by simpa using hDigits.1
  have hScan := counts_numDecodings_step.scan (w := ⟨if c = '0' then 0 else 1, 1, 0⟩) (l := [])
    hFront hDigits.2 (by rw [count, one_eq hDigits.2]) rfl
  rw [Nat.modEq_zero_iff, List.reverse_reverse] at hScan
  rw [numDecodings, List.reverse_concat]
  exact congrArg some hScan

/-- `numDecodings` counts the ways to split its string. -/
theorem numDecodings_eq_encard {t : List Char} (hNe : t ≠ []) (hDigits : ∀ c ∈ t, c ∈ digits) :
    ∃ ways, numDecodings t = some ways ∧
      {pieces | IsSegmentation IsNumber t pieces}.encard = ways := by
  refine ⟨_, numDecodings_eq_count hNe hDigits, ?_⟩
  rw [(enumerates_segmentations length_of_isNumber t).encard_eq, length_segmentations]
  rfl

end Plain

section Wild

def symbols : List Char := '*' :: digits

/-- The numbers that begin with a digit from 1 to 9. -/
def weight (c1 c2 : Nat) : Nat :=
  if c2 = '*'.toNat then get_count2 c1 else if val_2digit c1 c2 < 27 then 1 else 0

theorem get_count_wild_eq (prev_prev prev c1 c2 : Nat) :
    get_count_wild prev_prev prev c1 c2 = (prev + weight c1 c2 * prev_prev) % MOD := by
  rw [get_count_wild, weight, Nat.add_comm prev]
  split_ifs <;> simp

theorem sumOne_eq {c : Char} (hc : c ∈ symbols) : sumOne c = get_count c := by
  have hAll : ∀ c ∈ symbols, sumOne c = get_count c := List.all_iff_forall_prop.mp (by decide)
  exact hAll c hc

theorem sumOne_star : sumOne '*' = 9 := by decide

theorem sumTwo_star {d : Char} (hd : d ∈ symbols) :
    sumTwo '*' d = ((List.range' 1 9).map fun i => weight (i + '0'.toNat) d.toNat).sum := by
  have hAll : ∀ d ∈ symbols, sumTwo '*' d =
      ((List.range' 1 9).map fun i => weight (i + '0'.toNat) d.toNat).sum :=
    List.all_iff_forall_prop.mp (by decide)
  exact hAll d hd

theorem sum_eq_of_ne_star {c d : Char} (hc : c ∈ digits) (hd : d ∈ symbols) :
    sumOne c = (if c = '0' then 0 else 1) ∧
      sumTwo c d = if c = '0' then 0 else weight c.toNat d.toNat := by
  have hAll : digits.all (fun c => symbols.all fun d => sumOne c = (if c = '0' then 0 else 1) ∧
      sumTwo c d = if c = '0' then 0 else weight c.toNat d.toNat) = true := by decide
  exact List.all_iff_forall_prop.mp (List.all_eq_true.mp hAll c hc) d hd

theorem sum_mod_modEq (f : Nat → Nat) (l : List Nat) (m : Nat) :
    (l.map fun i => f i % m).sum ≡ (l.map f).sum [MOD m] := by
  induction l with
  | nil => rfl
  | cons i l ih =>
      rw [List.map_cons, List.map_cons, List.sum_cons, List.sum_cons]
      exact (Nat.mod_modEq _ _).add ih

theorem counts_numDecodings2_step : Counts numDecodings2_step sumOne sumTwo symbols MOD where
  current := by
    intro w c d hc hd
    rw [numDecodings2_step]
    refine (Nat.mod_modEq _ _).trans ?_
    simp only [get_count_wild_eq]
    rcases List.mem_cons.mp hc with rfl | hDigit
    · rw [if_neg (by decide), if_pos rfl]
      refine (sum_mod_modEq _ _ _).trans ?_
      rw [List.sum_map_add, List.sum_map_mul_right, sumOne_star, sumTwo_star hd, List.map_const',
        List.sum_replicate_nat, List.length_range']
    · have hStar : c ≠ '*' := by
        rintro rfl
        exact absurd hDigit (by decide)
      rw [(sum_eq_of_ne_star hDigit hd).1, (sum_eq_of_ne_star hDigit hd).2, if_neg hStar]
      split_ifs with hZero
      · simp [Nat.ModEq.refl]
      · rw [Nat.one_mul]
        exact Nat.mod_modEq _ _
  prev := rfl

theorem scan_lt {w : Ways} (hLt : w.current < MOD) (c : Char) (front : List Char) :
    (scan numDecodings2_step w c front).current < MOD := by
  induction front generalizing w c with
  | nil => exact hLt
  | cons d front ih =>
      rw [scan]
      apply ih
      exact Nat.mod_lt _ (by decide)

theorem numDecodings2_eq_count {s : List Char} (hNe : s ≠ []) (hSymbols : ∀ c ∈ s, c ∈ symbols) :
    numDecodings2 s = some (count sumOne sumTwo s % MOD) := by
  obtain ⟨front, c, rfl⟩ := (List.eq_nil_or_concat' s).resolve_left hNe
  simp only [List.forall_mem_append, List.forall_mem_singleton] at hSymbols
  have hFront : ∀ x ∈ front.reverse, x ∈ symbols := by simpa using hSymbols.1
  have hScan := counts_numDecodings2_step.scan (w := ⟨get_count c, 1, 0⟩) (l := []) hFront
    hSymbols.2 (by rw [count, sumOne_eq hSymbols.2]) rfl
  have hSmall : get_count c < MOD := by
    rw [get_count]
    split_ifs <;> decide
  rw [List.reverse_reverse] at hScan
  rw [numDecodings2, List.reverse_concat, ← hScan, Nat.mod_eq_of_lt (scan_lt hSmall _ _)]

end Wild

/-- The replacements of a string, each once. -/
theorem enumerates_expansions (s : List Char) :
    Enumerates (s.map choices).sections (Expands s) := by
  constructor
  · apply nodup_sections
    intro x hx
    obtain ⟨c, -, rfl⟩ := List.mem_map.mp hx
    rw [choices]
    split_ifs
    · decide
    · exact List.nodup_singleton c
  · intro t
    rw [List.mem_sections, List.forall₂_map_right_iff]
    rfl

theorem mem_digits_of_expands {s t : List Char} (hSymbols : ∀ c ∈ s, c ∈ symbols)
    (h : Expands s t) : ∀ c ∈ t, c ∈ digits := by
  induction h with
  | nil => simp
  | @cons d c t s hHead hTail ih =>
      rw [List.forall_mem_cons] at hSymbols ⊢
      refine ⟨?_, ih hSymbols.2⟩
      rw [choices] at hHead
      split_ifs at hHead with hStar
      · have hAll : ∀ d ∈ "123456789".toList, d ∈ digits :=
          List.all_iff_forall_prop.mp (by decide)
        exact hAll d hHead
      · rw [List.mem_singleton.mp hHead]
        exact (List.mem_cons.mp hSymbols.1).resolve_left hStar

/-- With wildcards, the ways are the sum over all replacements, modulo 1000000007. -/
theorem numDecodings2_eq_sum (s : List Char) (hNe : s ≠ [])
    (hSymbols : ∀ c ∈ s, c ∈ "*0123456789".toList) :
    ∃ (ways : List Char → Nat) (expansions : List (List Char)),
      Enumerates expansions (Expands s) ∧
      (∀ t ∈ expansions, numDecodings t = some (ways t) ∧
        {pieces | IsSegmentation IsNumber t pieces}.encard = ways t) ∧
      numDecodings2 s = some ((expansions.map ways).sum % MOD) := by
  have hExpansions := enumerates_expansions s
  refine ⟨count one two, _, hExpansions, fun t ht => ?_, ?_⟩
  · have hExpands := (hExpansions.mem_iff t).mp ht
    have hDigits := mem_digits_of_expands hSymbols hExpands
    have hNe' : t ≠ [] := by
      rintro rfl
      exact hNe (List.forall₂_nil_left_iff.mp hExpands)
    refine ⟨numDecodings_eq_count hNe' hDigits, ?_⟩
    obtain ⟨ways, hWays, hCard⟩ := numDecodings_eq_encard hNe' hDigits
    rw [numDecodings_eq_count hNe' hDigits, Option.some.injEq] at hWays
    rw [hCard, hWays]
  · rw [numDecodings2_eq_count hNe hSymbols, sum_count_sections]
    rfl

theorem numDecodings2_eq_sum_star :
    ∃ (ways : List Char → Nat) (expansions : List (List Char)),
      Enumerates expansions (Expands "1*0".toList) ∧
      (∀ t ∈ expansions, numDecodings t = some (ways t) ∧
        {pieces | IsSegmentation IsNumber t pieces}.encard = ways t) ∧
      (expansions.map ways).sum % MOD = 2 := by
  obtain ⟨ways, expansions, hExpansions, hWays, hSum⟩ :=
    numDecodings2_eq_sum "1*0".toList (by decide) (List.all_iff_forall_prop.mp (by decide))
  have hRun : numDecodings2 "1*0".toList = some 2 := by decide +kernel
  rw [hRun, Option.some.injEq] at hSum
  exact ⟨ways, expansions, hExpansions, hWays, hSum.symm⟩

end CppPerf.Counting.DecodeWays
