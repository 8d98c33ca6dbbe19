import CppPerf.Numbers.LargeIntExact
import Mathlib.Algebra.BigOperators.Group.List.Basic

/-! The decimal digits of large integers: `scale_down` and `get`. -/
namespace CppPerf.Numbers

open Positional

/-- One block of decimal digits for each limb: nine for each but the last, and
as many as it needs for the last one. -/
def InBlocks (li ds : List Int) : Prop :=
  ∃ blocks : List (List Int), ds = blocks.flatten ∧ blocks.map (value 10) = li ∧
    (∀ block ∈ blocks.dropLast, block.length = 9) ∧
    ∀ block ∈ blocks.getLast?, Trimmed 1 block

/-- A limb has at most nine digits. -/
theorem fill_limb_spec {n : Int} (h : 0 ≤ n ∧ n < LargeInt.scale) (li : List Int) :
    ∃ block, large_int_fill .decimal 32 li n = some (li ++ block) ∧ Digits 10 block ∧
      Trimmed 1 block ∧ value 10 block = n ∧ block.length ≤ 9 := by
  rw [LargeInt.scale_eq] at h
  have hBits : n < 2 ^ 32 := Int.lt_trans h.2 (by norm_num)
  obtain ⟨block, hRun, hDigits, hTrimmed, hValue⟩ :=
    large_int_fill_spec (s := .decimal) h.1 (by decide : 0 < 32) hBits li
  refine ⟨block, hRun, hDigits, hTrimmed, hValue, ?_⟩
  have hNines : Digits 10 (List.replicate 9 9) := by
    intro d hd
    rw [List.eq_of_mem_replicate hd]
    decide
  have hLe : value 10 block ≤ value 10 (List.replicate 9 9) := by
    refine Int.le_trans (Int.le_of_eq hValue) ?_
    have hMax : value 10 (List.replicate 9 9) = 999999999 := by decide
    omega
  exact hTrimmed.length_le hDigits hNines (by decide) hLe (by decide)

/-- The loop from a limb on that has been written behind full blocks. -/
theorem scaleDownLoop_spec {full block rest : List Int} (hFull : full.length % 9 = 0)
    (hBlock : Digits 10 block) (hTrimmed : Trimmed 1 block) (hShort : block.length ≤ 9)
    (hRest : Digits LargeInt.scale rest) :
    ∃ blocks : List (List Int),
      scaleDownLoop 9 (full ++ block) rest = some (full ++ blocks.flatten) ∧
      blocks.map (value 10) = value 10 block :: rest ∧ (∀ b ∈ blocks, Digits 10 b) ∧
      (∀ b ∈ blocks.dropLast, b.length = 9) ∧ ∀ b ∈ blocks.getLast?, Trimmed 1 b := by
  induction rest generalizing full block with
  | nil =>
      refine ⟨[block], ?_, rfl, by simpa using hBlock, by simp, by simpa using hTrimmed⟩
      rw [scaleDownLoop, List.flatten_singleton]
  | cons n rest ih =>
      obtain ⟨hn, hRest⟩ := digits_cons.mp hRest
      have hSome := hTrimmed.1
      have hPadded : (if full ++ block ≠ [] ∧ (full ++ block).length % 9 ≠ 0 then
          full ++ block ++ List.replicate (9 - (full ++ block).length % 9) 0
          else full ++ block) = full ++ pad block 9 := by
        have hLength : (full ++ block).length % 9 = block.length % 9 := by
          rw [List.length_append]
          omega
        rw [hLength]
        split_ifs with hPart
        · rw [pad, List.append_assoc, Nat.mod_eq_of_lt (by omega)]
        · have hNine : block.length = 9 := by
            by_contra hLess
            apply hPart
            refine ⟨List.append_ne_nil_of_right_ne_nil _ (List.length_pos_iff.mp hSome), ?_⟩
            omega
          rw [pad_of_le (Nat.le_of_eq hNine.symm)]
      have hPadLength : (pad block 9).length = 9 := by
        rw [length_pad]
        omega
      obtain ⟨next, hRun, hNext, hNextTrimmed, hNextValue, hNextShort⟩ :=
        fill_limb_spec hn (full ++ pad block 9)
      obtain ⟨blocks, hLoop, hValues, hDigits, hNine, hLast⟩ :=
        ih (show (full ++ pad block 9).length % 9 = 0 by rw [List.length_append]; omega) hNext
          hNextTrimmed hNextShort hRest
      have hBlocks : blocks ≠ [] := by
        rintro rfl
        cases hValues
      refine ⟨pad block 9 :: blocks, ?_, ?_, ?_, ?_, ?_⟩
      · rw [scaleDownLoop, hPadded, hRun, Option.bind_some, hLoop, List.flatten_cons,
          List.append_assoc]
      · rw [List.map_cons, hValues, value_pad, hNextValue]
      · exact List.forall_mem_cons.mpr ⟨digits_pad (s := .decimal) hBlock 9, hDigits⟩
      · rw [List.dropLast_cons_of_ne_nil hBlocks]
        exact List.forall_mem_cons.mpr ⟨hPadLength, hNine⟩
      · rw [List.getLast?_cons_of_ne_nil hBlocks]
        exact hLast

/-- The value of blocks of nine digits. -/
theorem value_flatten {blocks : List (List Int)}
    (hNine : ∀ block ∈ blocks.dropLast, block.length = 9) :
    value 10 blocks.flatten = value LargeInt.scale (blocks.map (value 10)) := by
  induction blocks with
  | nil => rfl
  | cons block blocks ih =>
      cases blocks with
      | nil => simp
      | cons next blocks =>
          rw [List.dropLast_cons_cons] at hNine
          obtain ⟨hHead, hTail⟩ := List.forall_mem_cons.mp hNine
          rw [List.flatten_cons, value_append, ih hTail, hHead, List.map_cons, value_cons]
          rfl

theorem length_flatten {blocks : List (List Int)} (hSome : blocks ≠ [])
    (hNine : ∀ block ∈ blocks.dropLast, block.length = 9)
    (hLast : ∀ block ∈ blocks.getLast?, Trimmed 1 block) :
    Trimmed (9 * (blocks.length - 1) + 1) blocks.flatten := by
  obtain ⟨front, last, hConcat⟩ := (List.eq_nil_or_concat blocks).resolve_left hSome
  rw [List.concat_eq_append] at hConcat
  subst blocks
  rw [List.dropLast_concat] at hNine
  have hTrimmed : Trimmed 1 last := hLast last (by simp)
  have hFront : front.flatten.length = 9 * front.length := by
    rw [List.length_flatten, List.map_congr_left hNine, List.map_const', List.sum_replicate,
      smul_eq_mul, Nat.mul_comm]
  rw [List.flatten_append, List.flatten_singleton, List.length_append, List.length_singleton,
    Nat.add_sub_cancel]
  have hSomeLast : last ≠ [] := List.length_pos_iff.mp hTrimmed.1
  constructor
  · rw [List.length_append, hFront]
    exact Nat.add_le_add_left hTrimmed.1 _
  · intro hLong
    rw [List.length_append, hFront] at hLong
    rw [List.getLast?_append_of_ne_nil _ hSomeLast]
    exact hTrimmed.2 (by omega)

theorem scale_down_spec {li : List Int} (h : Digits LargeInt.scale li) (hSome : li ≠ []) :
    ∃ ds, scale_down li 9 = some ds ∧ Digits 10 ds ∧ value 10 ds = value LargeInt.scale li ∧
      Trimmed (9 * (li.length - 1) + 1) ds ∧ InBlocks li ds := by
  cases li with
  | nil => exact absurd rfl hSome
  | cons n rest =>
      obtain ⟨hn, hRest⟩ := digits_cons.mp h
      obtain ⟨block, hRun, hBlock, hTrimmed, hValue, hShort⟩ := fill_limb_spec hn []
      obtain ⟨blocks, hLoop, hValues, hDigits, hNine, hLast⟩ :=
        scaleDownLoop_spec (show ([] : List Int).length % 9 = 0 from rfl) hBlock hTrimmed hShort
          hRest
      rw [hValue] at hValues
      have hBlocks : blocks ≠ [] := by
        rintro rfl
        cases hValues
      have hLength : blocks.length = (n :: rest).length := by
        rw [← hValues, List.length_map]
      refine ⟨blocks.flatten, ?_, ?_, ?_, ?_, blocks, rfl, hValues, hNine, hLast⟩
      · rw [scale_down, scaleDownLoop, if_neg (fun hEmpty => hEmpty.1 rfl), hRun,
          Option.bind_some, hLoop, List.nil_append]
      · intro d hd
        obtain ⟨b, hb, hMem⟩ := List.mem_flatten.mp hd
        exact hDigits b hb d hMem
      · rw [value_flatten hNine, hValues]
      · rw [← hLength]
        exact length_flatten hBlocks hNine hLast

section Print

theorem digitChar_eq {d : Int} (h : 0 ≤ d ∧ d < 10) :
    Char.ofNat (d.toNat + 48) = d.toNat.digitChar := by
  have hAll : ∀ n < 10, Char.ofNat (n + 48) = n.digitChar := by decide
  exact hAll d.toNat (by omega)

/-- Digits without a zero at the end print as their number. -/
theorem map_reverse_eq_toDigits {ds : List Int} (h : Digits 10 ds) (hSome : ds ≠ [])
    (hLast : ds.getLast? ≠ some 0) :
    ds.reverse.map (fun c => Char.ofNat (c.toNat + 48)) = Nat.toDigits 10 (value 10 ds).toNat := by
  induction ds with
  | nil => exact absurd rfl hSome
  | cons d ds ih =>
      obtain ⟨hd, hds⟩ := digits_cons.mp h
      rw [List.reverse_cons, List.map_append, List.map_singleton, digitChar_eq hd]
      cases ds with
      | nil =>
          rw [value_cons, value_nil, Int.mul_zero, Int.add_zero,
            Nat.toDigits_of_lt_base (by omega)]
          rfl
      | cons e ds =>
          have hRest : (e :: ds).getLast? ≠ some 0 := by
            rwa [List.getLast?_cons_cons] at hLast
          have hPos : 0 < value 10 (e :: ds) := by
            have hPow := pow_le_of_getLast hds (List.cons_ne_nil _ _) hRest
            have hOne : (0 : Int) < 10 ^ ((e :: ds).length - 1) := Int.pow_pos (by decide)
            omega
          have hValue : (value 10 (d :: e :: ds)).toNat =
              10 * (value 10 (e :: ds)).toNat + d.toNat := by
            rw [value_cons]
            omega
          rw [ih hds (List.cons_ne_nil _ _) hRest, hValue,
            ← Nat.toDigits_append_toDigits (by decide) (by omega) (by omega),
            Nat.toDigits_of_lt_base (show d.toNat < 10 by omega)]

theorem get_str_spec {ds : List Int} (h : Digits 10 ds) :
    LargeInt.get_str ds.reverse = (value 10 ds).toNat.repr := by
  have hReverse : ds.reverse.dropWhile (· = 0) = (ds.rdropWhile (· = 0)).reverse := by
    rw [List.rdropWhile, List.reverse_reverse]
  rw [LargeInt.get_str, hReverse, ← value_rdropWhile]
  cases hKept : ds.rdropWhile (· = 0) with
  | nil => rfl
  | cons d rest =>
      have hSome : ds.rdropWhile (· = 0) ≠ [] := by
        rw [hKept]
        exact List.cons_ne_nil _ _
      have hPrint := map_reverse_eq_toDigits h.rdropWhile hSome (getLast_rdropWhile hSome)
      rw [hKept] at hPrint
      rw [Nat.repr_eq_ofList_toDigits, ← hPrint]
      cases hRev : (d :: rest).reverse with
      | nil => simp at hRev
      | cons e others => rfl

theorem get_spec {li : List Int} (h : Digits LargeInt.scale li) (hSome : li ≠ []) :
    LargeInt.get ⟨li⟩ = some (value LargeInt.scale li).toNat.repr := by
  obtain ⟨ds, hRun, hDigits, hValue, _⟩ := scale_down_spec h hSome
  rw [LargeInt.get, if_neg hSome, hRun, Option.map_some, get_str_spec hDigits, hValue]

end Print

section Scales

variable {bln chars : List Int} {m n : Nat}

/-- Numbers at both scales that have the same value, and enough digits to be
compared. -/
theorem scale_down_eq (hBln : Digits LargeInt.scale bln) (hBlnTrimmed : Trimmed m bln)
    (hm : 0 < m) (hChars : Digits 10 chars) (hCharsTrimmed : Trimmed n chars)
    (hValue : value LargeInt.scale bln = value 10 chars) (hLow : 9 * (m - 1) + 1 ≤ n)
    (hHigh : ∀ ds, Digits 10 ds → 9 * (m - 1) + 1 ≤ ds.length →
      value 10 ds = value 10 chars → n ≤ ds.length) : scale_down bln 9 = some chars := by
  have hSome : bln ≠ [] := LargeInt.ne_nil_of_trimmed hBlnTrimmed hm
  obtain ⟨ds, hRun, hDigits, hDsValue, hDsTrimmed, _⟩ := scale_down_spec hBln hSome
  have hSame := hDsValue.trans hValue
  have hmLength := hBlnTrimmed.1
  have hEnough : 9 * (bln.length - 1) + 1 ≤ chars.length := by
    have hnLength := hCharsTrimmed.1
    by_cases hLonger : m < bln.length
    · -- the last limb is not zero
      have hPow := pow_le_of_getLast hBln hSome (hBlnTrimmed.2 hLonger)
      have hLt := hChars.value_lt
      have hScale : LargeInt.scale ^ (bln.length - 1) = 10 ^ (9 * (bln.length - 1)) := by
        rw [pow_mul]
        rfl
      have hPowLt : (10 : Int) ^ (9 * (bln.length - 1)) < 10 ^ chars.length := by omega
      exact (pow_lt_pow_iff_right₀ (by decide)).mp hPowLt
    · omega
  have hLe := hDsTrimmed.length_le hDigits hChars hEnough (Int.le_of_eq hSame) (by decide)
  have hGe : chars.length ≤ ds.length :=
    hCharsTrimmed.length_le hChars hDigits (hHigh ds hDigits (by have := hDsTrimmed.1; omega) hSame)
      (Int.le_of_eq hSame.symm) (by decide)
  rw [hRun, eq_of_value_eq hDigits hChars (by omega) hSame]

/-- Scaling down after the multiplication gives `product`, and before it
`product'`. -/
def MultipliesTo (li : List Int) (factor : Int) (product product' : List Int) : Prop :=
  ∃ ds bln, scale_down li 9 = some ds ∧
    large_int_multiply .billion li factor = some bln ∧ scale_down bln 9 = some product ∧
    large_int_multiply .decimal ds factor = some product'

/-- The sum is the same whether it is scaled down before or after. -/
def AddsAlike (v1 v2 : List Int) : Prop :=
  ∃ ds1 ds2 bln padded total padded', scale_down v1 9 = some ds1 ∧ scale_down v2 9 = some ds2 ∧
    sum .billion v1 v2 = some (bln, padded) ∧ scale_down bln 9 = some total ∧
    sum .decimal ds1 ds2 = some (total, padded')

variable {li other : List Int}

theorem multipliesTo_spec (h : Digits LargeInt.scale li) (hSome : li ≠ []) {factor : Int}
    (hFactor : 0 ≤ factor ∧ factor < 2147483648) :
    ∃ product product', MultipliesTo li factor product product' ∧
      value 10 product = value 10 product' ∧ (1 ≤ factor → product = product') := by
  obtain ⟨ds, hRun, hDs, hDsValue, hDsTrimmed, _⟩ := scale_down_spec h hSome
  obtain ⟨bln, hBlnRun, hBln, hBlnTrimmed, hBlnValue⟩ :=
    large_int_multiply_spec (s := .billion) h hFactor
  obtain ⟨product', hRun', hProduct', hTrimmed', hValue'⟩ :=
    large_int_multiply_spec (s := .decimal) hDs hFactor
  have hPos := List.length_pos_iff.mpr hSome
  have hSame : value LargeInt.scale bln = value 10 product' := by
    refine hBlnValue.trans (Eq.trans ?_ hValue'.symm)
    exact congrArg (· * factor) hDsValue.symm
  obtain ⟨product, hProductRun, _, hProductValue, _⟩ :=
    scale_down_spec hBln (LargeInt.ne_nil_of_trimmed hBlnTrimmed hPos)
  refine ⟨product, product', ⟨ds, bln, hRun, hBlnRun, hProductRun, hRun'⟩,
    hProductValue.trans hSame, fun hOne => ?_⟩
  have hEq := scale_down_eq hBln hBlnTrimmed hPos hProduct' hTrimmed' hSame hDsTrimmed.1
    fun other hOther hLength hOtherValue => hDsTrimmed.length_le hDs hOther hLength ?_ (by decide)
  · exact Option.some.inj (hProductRun.symm.trans hEq)
  · -- a factor of at least 1 does not make the number smaller
    have hMul := Int.mul_le_mul_of_nonneg_left hOne hDs.value_nonneg
    rw [Int.mul_one] at hMul
    exact Int.le_trans hMul (Int.le_of_eq (hValue'.symm.trans hOtherValue.symm))

theorem addsAlike (h : Digits LargeInt.scale li) (hSome : li ≠ [])
    (hOther : Digits LargeInt.scale other) (hOtherSome : other ≠ []) : AddsAlike li other := by
  obtain ⟨ds1, hRun1, hDs1, hValue1, hTrimmed1, _⟩ := scale_down_spec h hSome
  obtain ⟨ds2, hRun2, hDs2, hValue2, hTrimmed2, _⟩ := scale_down_spec hOther hOtherSome
  obtain ⟨bln, hBlnRun, hBln, hBlnTrimmed, hBlnValue⟩ := sum_spec (s := .billion) h hOther
  obtain ⟨total, hRun, hTotal, hTrimmed, hValue⟩ := sum_spec (s := .decimal) hDs1 hDs2
  have hPos := List.length_pos_iff.mpr hSome
  have hSame : value LargeInt.scale bln = value 10 total := by
    refine hBlnValue.trans (Eq.trans ?_ hValue.symm)
    exact congrArg₂ (· + ·) hValue1.symm hValue2.symm
  have hLow1 := hTrimmed1.1
  have hLow2 := hTrimmed2.1
  refine ⟨ds1, ds2, bln, _, total, _, hRun1, hRun2, hBlnRun, ?_, hRun⟩
  refine scale_down_eq hBln hBlnTrimmed (by omega) hTotal hTrimmed hSame (by omega) ?_
  intro sum hSum hLength hSumValue
  have hNonneg1 := hDs1.value_nonneg
  have hNonneg2 := hDs2.value_nonneg
  have hSumEq : value 10 sum = value 10 ds1 + value 10 ds2 := hSumValue.trans hValue
  have hLe1 := hTrimmed1.length_le hDs1 hSum (by omega) (by omega) (by decide)
  have hLe2 := hTrimmed2.length_le hDs2 hSum (by omega) (by omega) (by decide)
  omega

end Scales

end CppPerf.Numbers
