import CppPerf.Semantics.Numeral
import CppPerf.Text.Digits

/-! Which numbers `itoa_new2` and `itoa_` print inside of their buffers. At most ten
digits are counted, and `itoa_` neither returns nor makes room for the sign. -/
namespace CppPerf.Text

open CharBuffer Numeral

/-- The decimal representation of a number. -/
def decimal (val : Int) : List Char :=
  if val < 0 then '-' :: Nat.toDigits 10 val.natAbs else Nat.toDigits 10 val.natAbs

section Loops

variable {n : Nat} {buf : List Char} {p : Int}

theorem digitOf_eq (n : Nat) : digitOf n = Nat.digitChar (n % 10) := by
  have hAll : ∀ d < 10, Char.ofNat (d + 48) = Nat.digitChar d := by decide
  have hMod : ((n : Int).tmod 10 + 48).toNat = n % 10 + 48 := by
    rw [Int.tmod_eq_emod_of_nonneg (Int.natCast_nonneg n)]
    omega
  rw [digitOf, hMod, hAll _ (Nat.mod_lt n (by decide))]

theorem tdiv_ten (n : Nat) : (n : Int).tdiv 10 = ((n / 10 : Nat) : Int) :=
  Int.tdiv_eq_ediv_of_nonneg (Int.natCast_nonneg n)

theorem itoa_fill_eq (len n : Nat) (p : Int) (buf : List Char) :
    ∃ rest, itoa_fill len n p buf = (writeDown (low len n) p buf).map fun buf => (buf, rest) := by
  induction len generalizing n p buf with
  | zero => exact ⟨_, rfl⟩
  | succ len ih =>
      rw [itoa_fill, digitOf_eq, tdiv_ten, low, writeDown]
      cases hWrite : write p (Nat.digitChar (n % 10)) buf with
      | none => exact ⟨0, rfl⟩
      | some next => exact ih (n / 10) (p - 1) next

theorem fillAll_eq {rounds : Nat} (h : (digits n).length < rounds) (p : Int) (buf : List Char) :
    fillAll rounds n p buf = writeDown (digits n) p buf := by
  induction rounds generalizing n p buf with
  | zero => omega
  | succ rounds ih =>
      rw [fillAll]
      rcases Nat.eq_zero_or_pos n with rfl | hPos
      · rfl
      · rw [digits_of_pos hPos, List.length_cons] at h
        rw [if_pos (Int.natCast_pos.mpr hPos), digitOf_eq, tdiv_ten, digits_of_pos hPos, writeDown]
        refine congrArg (Option.bind _) (funext fun next => ?_)
        exact ih (by omega) (p - 1) next

theorem count_digits_eq (n : Nat) :
    count_digits n = min 10 (max 1 (digits n).length) := by
  have hLe (k : Nat) : (digits n).length ≤ k ↔ n < 10 ^ k := length_digits_le_iff
  have h1 := hLe 1
  have h2 := hLe 2
  have h3 := hLe 3
  have h4 := hLe 4
  have h5 := hLe 5
  have h6 := hLe 6
  have h7 := hLe 7
  have h8 := hLe 8
  have h9 := hLe 9
  rw [count_digits]
  split_ifs
  · omega
  · omega
  · omega
  · omega
  · omega
  · omega
  · omega
  · omega
  · omega
  · omega

theorem length_digits_lt (h : n < 2 ^ 63) : (digits n).length < maxRounds := by
  have hLe : (digits n).length ≤ 19 := length_digits_le_iff.mpr (h.trans (by decide))
  rw [maxRounds]
  omega

theorem nul_notMem_toDigits (n : Nat) : nul ∉ Nat.toDigits 10 n := by
  intro hMem
  exact absurd (Nat.isDigit_of_mem_toDigits (by decide) (by decide) hMem) (by decide)

/-- The null first, then the digits from the last on: the buffer ends up with the
number and the null from `a` on. -/
theorem finish_eq {a : Nat} (hPos : 0 < n) (hRange : n < 2 ^ 63)
    (hFits : a + (digits n).length + 1 ≤ buf.length) :
    (write ((a + (digits n).length : Nat) : Int) nul buf).bind
        (fillAll maxRounds n (a + (digits n).length - 1)) =
      some (splice a (Nat.toDigits 10 n ++ [nul]) buf) := by
  have hDown := writeDown_eq (show a + (nul :: digits n).length ≤ buf.length by
    rw [List.length_cons]
    omega)
  have hLast : (a : Int) + (nul :: digits n).length - 1 =
      ((a + (digits n).length : Nat) : Int) := by
    rw [List.length_cons]
    omega
  rw [hLast, List.reverse_cons, reverse_digits hPos, writeDown] at hDown
  rw [← hDown]
  refine congrArg (Option.bind _) (funext fun next => ?_)
  rw [fillAll_eq (length_digits_lt hRange), Int.natCast_add]

/-- Digits that there is no room for are written before the buffer. -/
theorem finish_none (hRange : n < 2 ^ 63) {i : Int} (hStart : -1 ≤ i)
    (hi : i + 1 < (digits n).length) (j : Int) (buf : List Char) :
    (write j nul buf).bind (fillAll maxRounds n i) = none := by
  cases write j nul buf with
  | none => rfl
  | some next =>
      rw [Option.bind_some, fillAll_eq (length_digits_lt hRange), writeDown_underflow hStart hi]

/-- Zero has a case of its own. -/
theorem write_zero (h : 2 ≤ buf.length) :
    ((write 0 '0' buf).bind fun buf => write 1 nul buf) = some (splice 0 ['0', nul] buf) := by
  rw [← writeUp_eq (show 0 + ['0', nul].length ≤ buf.length from h), writeUp]
  exact congrArg (Option.bind _) (funext fun next => (writeUp_singleton nul 1 next).symm)

end Loops

section New

variable {val : Int} {n : Nat} {buf : List Char}

theorem itoa_new2_of_pos (hPos : 0 < n) (buf : List Char) :
    itoa_new2 n buf = (write (count_digits n) nul buf).bind
      (fillAll maxRounds n (count_digits n - 1)) := by
  rw [itoa_new2, if_neg (by omega), if_neg (by omega)]
  dsimp only
  rw [Int.sub_add_cancel]
  rfl

theorem itoa_new2_of_neg (hPos : 0 < n) (hRange : n < 2 ^ 63) (hBuf : buf ≠ []) :
    itoa_new2 (-n) buf = (write (count_digits n + 1) nul (splice 0 ['-'] buf)).bind
      (fillAll maxRounds n (count_digits n)) := by
  have hWrite : write 0 '-' buf = some (splice 0 ['-'] buf) :=
    write_eq (List.length_pos_iff.mpr hBuf) '-'
  rw [itoa_new2, if_neg (by omega), if_pos (by omega), hWrite, Option.bind_eq_bind,
    Option.bind_some, if_neg (by omega), Int.neg_neg]

theorem decimal_natCast (n : Nat) : decimal n = Nat.toDigits 10 n := by
  rw [decimal, if_neg (by omega), Int.natAbs_natCast]

theorem decimal_neg (hPos : 0 < n) : decimal (-n) = '-' :: Nat.toDigits 10 n := by
  rw [decimal, if_pos (by omega), Int.natAbs_neg, Int.natAbs_natCast]

theorem nul_notMem_decimal (val : Int) : nul ∉ decimal val := by
  rw [decimal]
  split_ifs
  · exact List.not_mem_cons_of_ne_of_not_mem (by decide) (nul_notMem_toDigits _)
  · exact nul_notMem_toDigits _

theorem count_digits_pos (hPos : 0 < n) : count_digits n = min 10 (digits n).length := by
  rw [count_digits_eq, digits_of_pos hPos, List.length_cons]
  omega

/-- The eleventh digit is written before the buffer. -/
theorem itoa_new2_pos_iff (hPos : 0 < n) (hRange : n < 2 ^ 63) (hSize : 22 ≤ buf.length) :
    (∃ buf', itoa_new2 n buf = some buf' ∧ stringAt 0 buf' = some (decimal n)) ↔
      (digits n).length ≤ 10 := by
  rw [itoa_new2_of_pos hPos, count_digits_pos hPos]
  constructor
  · rintro ⟨buf', hRun, -⟩
    by_contra hMany
    rw [finish_none hRange (by omega) (by omega)] at hRun
    cases hRun
  · intro hFew
    have hFinish := finish_eq hPos hRange (show 0 + (digits n).length + 1 ≤ buf.length by omega)
    rw [Nat.zero_add, Int.natCast_zero, Int.zero_add] at hFinish
    rw [Nat.min_eq_right hFew]
    refine ⟨_, hFinish, ?_⟩
    rw [decimal_natCast]
    exact stringAt_splice (Nat.zero_le _) (nul_notMem_toDigits n)

/-- The eleventh digit is written over the sign, and the twelfth before the buffer. -/
theorem itoa_new2_neg_iff (hPos : 0 < n) (hRange : n < 2 ^ 63) (hSize : 22 ≤ buf.length) :
    (∃ buf', itoa_new2 (-n) buf = some buf' ∧ stringAt 0 buf' = some (decimal (-n))) ↔
      (digits n).length ≤ 10 := by
  have hBuf : buf ≠ [] := List.ne_nil_of_length_pos (by omega)
  have hSign : (splice 0 ['-'] buf).length = buf.length :=
    length_splice (by rw [List.length_singleton]; omega)
  rw [itoa_new2_of_neg hPos hRange hBuf, count_digits_pos hPos]
  constructor
  · rintro ⟨buf', hRun, hString⟩
    by_contra hMany
    rw [Nat.min_eq_left (by omega)] at hRun
    by_cases hEleven : (digits n).length = 11
    · have hFinish := finish_eq hPos hRange
        (show 0 + (digits n).length + 1 ≤ (splice 0 ['-'] buf).length by omega)
      rw [Nat.zero_add, Int.natCast_zero, Int.zero_add, hEleven] at hFinish
      rw [← Option.some.inj (hFinish.symm.trans hRun),
        stringAt_splice (Nat.zero_le _) (nul_notMem_toDigits n), decimal_neg hPos] at hString
      have hLength := congrArg List.length (Option.some.inj hString)
      rw [List.length_cons] at hLength
      omega
    · rw [finish_none hRange (by omega) (by omega)] at hRun
      cases hRun
  · intro hFew
    have hFinish := finish_eq hPos hRange
      (show 1 + (digits n).length + 1 ≤ (splice 0 ['-'] buf).length by omega)
    have hEnd : ((1 + (digits n).length : Nat) : Int) = (digits n).length + 1 := by omega
    have hLast : ((1 : Nat) : Int) + (digits n).length - 1 = (digits n).length := by omega
    rw [hEnd, hLast] at hFinish
    rw [Nat.min_eq_right hFew]
    refine ⟨_, hFinish, ?_⟩
    have hJoin := splice_append_right (Nat.zero_le buf.length) ['-'] (Nat.toDigits 10 n ++ [nul])
    rw [List.length_singleton, Nat.zero_add] at hJoin
    have hString := stringAt_splice (Nat.zero_le buf.length) (nul_notMem_decimal (-n))
    rw [decimal_neg hPos] at hString ⊢
    rw [hJoin]
    exact hString

theorem itoa_new2_zero (hSize : 22 ≤ buf.length) :
    ∃ buf', itoa_new2 0 buf = some buf' ∧ stringAt 0 buf' = some (decimal 0) := by
  exact ⟨_, write_zero (by omega), stringAt_splice (Nat.zero_le _) (nul_notMem_decimal 0)⟩

theorem itoa_new2_iff (hRange : -2 ^ 63 < val ∧ val < 2 ^ 63) (hSize : 22 ≤ buf.length) :
    (∃ buf', itoa_new2 val buf = some buf' ∧ stringAt 0 buf' = some (decimal val)) ↔
      val.natAbs < 10 ^ 10 := by
  rw [← length_digits_le_iff]
  rcases Int.lt_trichotomy val 0 with hNeg | rfl | hPos
  · obtain ⟨n, rfl⟩ : ∃ n : Nat, val = -n := ⟨val.natAbs, by omega⟩
    rw [Int.natAbs_neg, Int.natAbs_natCast]
    exact itoa_new2_neg_iff (by omega) (by omega) hSize
  · exact iff_of_true (itoa_new2_zero hSize) (Nat.zero_le 10)
  · obtain ⟨n, rfl⟩ : ∃ n : Nat, val = n := ⟨val.natAbs, by omega⟩
    rw [Int.natAbs_natCast]
    exact itoa_new2_pos_iff (by omega) (by omega) hSize

end New

section Cut

variable {n a size : Nat} {buf : List Char}

theorem length_toDigits (n : Nat) : (Nat.toDigits 10 n).length = max 1 (digits n).length := by
  rcases Nat.eq_zero_or_pos n with rfl | hPos
  · rfl
  · rw [← reverse_digits hPos, List.length_reverse, digits_of_pos hPos, List.length_cons]
    omega

theorem low_toDigits (n : Nat) :
    (low (Nat.toDigits 10 n).length n).reverse = Nat.toDigits 10 n := by
  rcases Nat.eq_zero_or_pos n with rfl | hPos
  · rfl
  · rw [← reverse_digits hPos, List.length_reverse, low_length]

theorem nul_notMem_low (k n : Nat) : nul ∉ (low k n).reverse := by
  intro hMem
  exact absurd (isDigit_of_mem_low (List.mem_reverse.mp hMem)) (by decide)

/-- The digits that are printed. -/
def printed (n size : Nat) : Nat := min (min 10 (Nat.toDigits 10 n).length) (size - 1)

theorem itoaUnsigned_eq (hSize : 2 ≤ size) (a n : Nat) (buf : List Char) :
    itoaUnsigned n a size buf =
      if a + printed n size < buf.length then
        some (splice a ((low (printed n size) n).reverse ++ [nul]) buf, (a : Int))
      else none := by
  have hLen : min (count_digits n) ((size : Int) - 1) = printed n size := by
    rw [count_digits_eq, printed, length_toDigits]
    omega
  rw [itoaUnsigned, hLen]
  dsimp only
  rw [if_neg (by omega), Int.toNat_natCast]
  obtain ⟨rest, hFill⟩ := itoa_fill_eq (printed n size) n (a + printed n size - 1) buf
  rw [hFill]
  split_ifs with hFits
  · have hCs := length_low (printed n size) n
    have hWrite := writeDown_eq
      (show a + (low (printed n size) n).length ≤ buf.length by omega)
    rw [hCs] at hWrite
    have hLength : (splice a (low (printed n size) n).reverse buf).length = buf.length :=
      length_splice (by rw [List.length_reverse]; omega)
    have hNul := write_eq (a := a + printed n size) (hLength.symm ▸ hFits) nul
    have hJoin := splice_append_right (show a ≤ buf.length by omega)
      (low (printed n size) n).reverse [nul]
    rw [List.length_reverse, hCs] at hJoin
    rw [hWrite, ← Int.natCast_add, Option.map_some, Option.bind_eq_bind, Option.bind_some, hNul,
      hJoin]
    rfl
  · cases hWrite : writeDown (low (printed n size) n) (a + printed n size - 1) buf with
    | none => rfl
    | some next =>
        have hLength := length_writeDown hWrite
        rw [Option.map_some, Option.bind_eq_bind, Option.bind_some,
          write_of_ge (by rw [hLength]; omega)]
        rfl

/-- What `itoa_` is to do: print the number if there is room for it. -/
def Printed (val : Int) (buf : List Char) : Prop :=
  ∃ buf' p, itoa_ val buf.length buf = some (buf', p) ∧
    ((decimal val).length < buf.length → stringAt p.toNat buf' = some (decimal val))

theorem printed_natCast_iff (hSize : 2 ≤ buf.length) :
    Printed n buf ↔ n < 10 ^ 10 ∨ buf.length ≤ (decimal n).length := by
  have hRun : itoa_ n buf.length buf = some (splice 0
      ((low (printed n buf.length) n).reverse ++ [nul]) buf, 0) := by
    rw [itoa_, if_neg (by omega)]
    refine (itoaUnsigned_eq hSize 0 n buf).trans (if_pos ?_)
    rw [printed]
    omega
  have hString := stringAt_splice (Nat.zero_le buf.length) (nul_notMem_low (printed n buf.length) n)
  rw [Printed, ← Nat.length_toDigits_le_iff (by decide) (by decide), decimal_natCast]
  constructor
  · rintro ⟨buf', p, hEq, hPrint⟩
    obtain ⟨rfl, rfl⟩ := Prod.mk.inj (Option.some.inj (hRun.symm.trans hEq))
    by_contra hNot
    push Not at hNot
    have hSame := congrArg List.length (Option.some.inj (hString.symm.trans (hPrint hNot.2)))
    rw [List.length_reverse, length_low, printed] at hSame
    omega
  · intro hCond
    refine ⟨_, _, hRun, fun hRoom => ?_⟩
    have hAll : printed n buf.length = (Nat.toDigits 10 n).length := by
      rw [printed]
      omega
    rw [hAll, low_toDigits] at hString ⊢
    exact hString

theorem printed_neg_iff (hPos : 0 < n) (hRange : n < 2 ^ 63) (hSize : 2 ≤ buf.length) :
    Printed (-n) buf ↔
      10 ^ 10 ≤ n ∧ 12 ≤ buf.length ∧ buf.length ≤ (decimal (-n)).length := by
  have hSign : (splice 0 ['-'] buf).length = buf.length :=
    length_splice (by rw [List.length_singleton]; omega)
  have hWrite : write 0 '-' buf = some (splice 0 ['-'] buf) :=
    write_eq (show 0 < buf.length by omega) '-'
  have hRun : itoa_ (-n) buf.length buf = if 1 + printed n buf.length < buf.length then
      some (splice 1 ((low (printed n buf.length) n).reverse ++ [nul]) (splice 0 ['-'] buf), 1)
      else none := by
    rw [itoa_, if_pos (by omega), if_neg (by omega), hWrite, Option.bind_eq_bind,
      Option.bind_some, Int.neg_neg]
    refine (itoaUnsigned_eq hSize 1 n _).trans ?_
    rw [hSign]
    rfl
  have hString := stringAt_splice (show 1 ≤ (splice 0 ['-'] buf).length by omega)
    (nul_notMem_low (printed n buf.length) n)
  have hDigits := not_congr (Nat.length_toDigits_le_iff (b := 10) (n := n) (k := 10)
    (by decide) (by decide))
  rw [Nat.not_lt] at hDigits
  rw [Printed, ← hDigits, hRun, decimal_neg hPos, List.length_cons]
  constructor
  · rintro ⟨buf', p, hEq, hPrint⟩
    split_ifs at hEq with hFits
    obtain ⟨rfl, rfl⟩ := Prod.mk.inj (Option.some.inj hEq)
    have hShort : ¬(Nat.toDigits 10 n).length + 1 < buf.length := by
      intro hRoom
      -- the pointer is behind the sign
      have hSame := Option.some.inj (hString.symm.trans (hPrint hRoom))
      have hMem : '-' ∈ (low (printed n buf.length) n).reverse := by
        rw [hSame]
        exact List.mem_cons_self
      exact absurd (isDigit_of_mem_low (List.mem_reverse.mp hMem)) (by decide)
    rw [printed] at hFits
    omega
  · rintro ⟨hMany, hTwelve, hShort⟩
    refine ⟨_, _, if_pos ?_, fun hRoom => absurd hRoom (Nat.not_lt.mpr hShort)⟩
    rw [printed]
    omega

end Cut

/-- The functions print what they are to print if and only if the number has at most
ten digits; and `itoa_`, which fails with a sign, also where there is no room. -/
theorem itoa_prints_iff (val : Int) (hRange : -2 ^ 63 < val ∧ val < 2 ^ 63) :
    (∀ buf : List Char, 22 ≤ buf.length →
      ((∃ buf', itoa_new2 val buf = some buf' ∧ stringAt 0 buf' = some (decimal val)) ↔
        val.natAbs < 10 ^ 10)) ∧
    ∀ buf : List Char, 2 ≤ buf.length → (Printed val buf ↔
      0 ≤ val ∧ (val < 10 ^ 10 ∨ buf.length ≤ (decimal val).length) ∨
      val ≤ -10 ^ 10 ∧ 12 ≤ buf.length ∧ buf.length ≤ (decimal val).length) := by
  refine ⟨fun buf hSize => itoa_new2_iff hRange hSize, fun buf hSize => ?_⟩
  rcases Int.lt_or_le val 0 with hNeg | hNonneg
  · obtain ⟨n, rfl⟩ : ∃ n : Nat, val = -n := ⟨val.natAbs, by omega⟩
    rw [printed_neg_iff (by omega) (by omega) hSize]
    omega
  · obtain ⟨n, rfl⟩ : ∃ n : Nat, val = n := ⟨val.natAbs, by omega⟩
    rw [printed_natCast_iff hSize]
    omega

/-- The smallest number of 32 bits is printed by the one, and without its sign by the
other. -/
theorem itoa_prints_smallest :
    (∃ buf', itoa_new2 (-2147483648) (List.replicate 22 'x') = some buf' ∧
      stringAt 0 buf' = some (decimal (-2147483648))) ∧
    ¬Printed (-2147483648) (List.replicate 22 'x') := by
  have h := itoa_prints_iff (-2147483648) (by decide)
  refine ⟨(h.1 (List.replicate 22 'x') (by decide)).mpr (by decide), ?_⟩
  rw [h.2 (List.replicate 22 'x') (by decide)]
  decide

/-- Eleven digits do not fit, a sign does not fit, and a sign is not returned. -/
theorem itoa_prints_wrong :
    itoa_new2 (10 ^ 10) (List.replicate 22 'x') = none ∧
      itoa_ (-5) 2 (List.replicate 2 'x') = none ∧
      itoa_ (-5) 22 (List.replicate 22 'x') =
        some (['-', '5', nul] ++ List.replicate 19 'x', 1) ∧
      ¬∃ buf' p, itoa_ (-5) 22 (List.replicate 22 'x') = some (buf', p) ∧
        stringAt p.toNat buf' = some (decimal (-5)) := by
  refine ⟨by decide, by decide, by decide, ?_⟩
  rintro ⟨buf', p, hRun, hString⟩
  have hEq : itoa_ (-5) 22 (List.replicate 22 'x') =
      some (['-', '5', nul] ++ List.replicate 19 'x', 1) := by decide
  obtain ⟨rfl, rfl⟩ := Prod.mk.inj (Option.some.inj (hRun.symm.trans hEq))
  exact absurd hString (by decide)

end CppPerf.Text
