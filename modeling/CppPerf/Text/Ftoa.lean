import CppPerf.Text.Digits
import CppPerf.Text.ItoaDecimal

/-! The price formatters of `bm_ftoa.h`. The number of decimals `dp` is not negative. -/
namespace CppPerf.Text

open CharBuffer

/-- The loop that trims zeros. The first argument is `dp`. -/
def trimZeros : Nat → (val : Int) → Int × Nat
  | 0, val => (val, 0)
  | dp + 1, val => if val.tmod 10 = 0 then trimZeros dp (val.tdiv 10) else (val, dp + 1)

/-- The sign is written, and the number taken without it. The index is where the number
begins. -/
def writeSign (val : Int) (szValue : List Char) : Option (List Char × Int × Int) :=
  if val < 0 then do
    let buf ← write 0 '-' szValue
    if val = -2 ^ 31 then none
    return (buf, 1, -val)
  else some (szValue, 0, val)

section Forward

variable (size : Int)

/-- The loop over the decimals, as long as there are digits. -/
def fracUp : (dp : Nat) → (val idx : Int) → List Char → Option (List Char × Int × Int × Nat)
  | 0, val, idx, buf => some (buf, idx, val, 0)
  | dp + 1, val, idx, buf =>
      if val > 0 ∧ idx < size then do
        let buf ← write idx (digitOf val) buf
        fracUp dp (val.tdiv 10) (idx + 1) buf
      else some (buf, idx, val, dp + 1)

/-- Zeros for the decimals that are left. -/
def zerosUp : (dp : Nat) → (idx : Int) → List Char → Option (List Char × Int)
  | 0, idx, buf => some (buf, idx)
  | dp + 1, idx, buf => do
      let buf ← write idx '0' buf
      zerosUp dp (idx + 1) buf

/-- The loop over the digits before the point. -/
def intUp : (rounds : Nat) → (val idx : Int) → List Char → Option (List Char × Int)
  | 0, _, _, _ => none
  | rounds + 1, val, idx, buf =>
      if val > 0 ∧ idx < size then do
        let buf ← write idx (digitOf val) buf
        intUp rounds (val.tdiv 10) (idx + 1) buf
      else some (buf, idx)

def ftoa (val : Int) (dp : Nat) (szValue : List Char) : Option (List Char) :=
  let size := size - 1
  if val = 0 then do
    let buf ← write 0 '0' szValue
    write 1 nul buf
  else do
    let (buf, idx, val) ← writeSign val szValue
    let (val, dp) := trimZeros dp val
    let (buf, idx, val) ←
      if dp > 0 then do
        let (buf, idx, val, dp) ← fracUp size dp val idx buf
        let (buf, idx) ← zerosUp dp idx buf
        let buf ← write idx '.' buf
        some (buf, idx + 1, val)
      else some (buf, idx, val)
    let (buf, idx) ← intUp size maxRounds val idx buf
    let start := if buf.head? = some '-' then 1 else 0
    write idx nul (reverse start idx.toNat buf)

end Forward

/-- The loop over the decimals, from the last place on. -/
def fracDown : (dp : Nat) → (val pEnd : Int) → List Char → Option (List Char × Int × Int × Nat)
  | 0, val, pEnd, buf => some (buf, pEnd, val, 0)
  | dp + 1, val, pEnd, buf =>
      if val > 0 then do
        let buf ← write pEnd (digitOf val) buf
        fracDown dp (val.tdiv 10) (pEnd - 1) buf
      else some (buf, pEnd, val, dp + 1)

def zerosDown : (dp : Nat) → (pEnd : Int) → List Char → Option (List Char × Int)
  | 0, pEnd, buf => some (buf, pEnd)
  | dp + 1, pEnd, buf => do
      let buf ← write pEnd '0' buf
      zerosDown dp (pEnd - 1) buf

def ftoa2 (val : Int) (dp : Nat) (szValue : List Char) : Option (List Char) :=
  if val = 0 then do
    let buf ← write 0 '0' szValue
    write 1 nul buf
  else do
    let (buf, pEnd, val) ← writeSign val szValue
    let (val, dp) := trimZeros dp val
    let pEnd := pEnd + count_digits val - 1
    if dp > 0 then do
      let pEnd := pEnd + 1
      let buf ← write (pEnd + 1) nul buf
      let (buf, pEnd, val, dp) ← fracDown dp val pEnd buf
      let (buf, pEnd) ← zerosDown dp pEnd buf
      let buf ← write pEnd '.' buf
      fillAll maxRounds val (pEnd - 1) buf
    else do
      let buf ← write (pEnd + 1) nul buf
      fillAll maxRounds val pEnd buf

end CppPerf.Text

/-! When the two price formatters agree. The fast one makes no room for zeros between
the point and the first digit. -/
namespace CppPerf.Text

open CharBuffer Numeral

/-- A price from its last character on, without a sign. -/
def body (v d : Nat) : List Char :=
  if d > 0 then low d v ++ '.' :: digits (v / 10 ^ d) else digits v

/-- The sign that is written. -/
def sign (val : Int) : List Char := if val < 0 then ['-'] else []

theorem length_sign (val : Int) : (sign val).length ≤ 1 := by
  rw [sign]
  split_ifs
  · exact Nat.le_refl 1
  · exact Nat.zero_le 1

theorem nul_notMem_sign (val : Int) : nul ∉ sign val := by
  rw [sign]
  split_ifs
  · exact List.not_mem_cons_of_ne_of_not_mem (by decide) List.not_mem_nil
  · exact List.not_mem_nil

section Body

variable {v d n : Nat}

theorem isDigit_or_point {c : Char} (h : c ∈ body v d) : c.isDigit ∨ c = '.' := by
  rw [body] at h
  split_ifs at h
  · rw [List.mem_append, List.mem_cons] at h
    rcases h with hLow | hPoint | hDigits
    · exact Or.inl (isDigit_of_mem_low hLow)
    · exact Or.inr hPoint
    · exact Or.inl (isDigit_of_mem_digits hDigits)
  · exact Or.inl (isDigit_of_mem_digits h)

theorem nul_notMem_body (v d : Nat) : nul ∉ body v d := fun h =>
  (isDigit_or_point h).elim (by decide) (by decide)

theorem minus_notMem_body (v d : Nat) : '-' ∉ body v d := fun h =>
  (isDigit_or_point h).elim (by decide) (by decide)

theorem length_body (hPos : 0 < d) (v : Nat) :
    (body v d).length = max d (digits v).length + 1 := by
  rw [body, if_pos hPos, List.length_append, length_low, List.length_cons, length_digits_div]
  omega

theorem low_zero (k : Nat) : low k 0 = List.replicate k '0' := by
  induction k with
  | zero => rfl
  | succ k ih => rw [low, Nat.zero_div, ih, List.replicate_succ]; rfl

/-- The digits that there are, then zeros. -/
theorem low_min_append (d n : Nat) :
    low (min d (digits n).length) n ++ List.replicate (d - min d (digits n).length) '0' =
      low d n := by
  induction d generalizing n with
  | zero => rw [Nat.zero_min]; rfl
  | succ d ih =>
      rcases Nat.eq_zero_or_pos n with rfl | hPos
      · rw [digits_zero, List.length_nil, Nat.min_zero, Nat.sub_zero, low_zero, low_zero]
        rfl
      · rw [digits_of_pos hPos, List.length_cons, Nat.succ_min_succ, low, List.cons_append,
          Nat.add_sub_add_right, ih, low]

theorem trimZeros_spec (hPos : 0 < n) (dp : Nat) :
    ∃ v d : Nat, trimZeros dp n = ((v : Int), d) ∧ 0 < v ∧ v ≤ n ∧ d ≤ dp ∧
      (dp ≤ (digits n).length ↔ d ≤ (digits v).length) := by
  induction dp generalizing n with
  | zero => exact ⟨n, 0, rfl, hPos, Nat.le_refl n, Nat.le_refl 0, Iff.rfl⟩
  | succ dp ih =>
      rw [trimZeros]
      split_ifs with hZero
      · have hMod : n % 10 = 0 := by
          rw [Int.tmod_eq_emod_of_nonneg (Int.natCast_nonneg n)] at hZero
          omega
        obtain ⟨v, d, hRun, hv, hLe, hd, hIff⟩ := ih (n := n / 10) (by omega)
        refine ⟨v, d, ?_, hv, by omega, by omega, ?_⟩
        · rw [tdiv_ten, hRun]
        · rw [digits_of_pos hPos, List.length_cons, Nat.succ_le_succ_iff, hIff]
      · exact ⟨n, dp + 1, rfl, hPos, Nat.le_refl n, Nat.le_refl _, Iff.rfl⟩

end Body

section Loops

variable {size : Int}

/-- The digits of the decimals, as far as there are some. -/
theorem fracUp_eq (d n : Nat) (idx : Int) (hSize : idx + d ≤ size) (buf : List Char) :
    fracUp size d n idx buf = (writeUp (low (min d (digits n).length) n) idx buf).map fun buf =>
      (buf, idx + (min d (digits n).length : Nat), ((n / 10 ^ d : Nat) : Int),
        d - min d (digits n).length) := by
  induction d generalizing n idx buf with
  | zero =>
      rw [Nat.zero_min, Nat.pow_zero, Nat.div_one, Int.natCast_zero, Int.add_zero]
      rfl
  | succ d ih =>
      rw [fracUp]
      rcases Nat.eq_zero_or_pos n with rfl | hPos
      · rw [if_neg (by omega), digits_zero, List.length_nil, Nat.min_zero,
          Nat.zero_div, Int.natCast_zero, Int.add_zero]
        rfl
      · rw [if_pos ⟨by omega, by omega⟩, digitOf_eq, tdiv_ten, digits_of_pos hPos,
          List.length_cons, Nat.succ_min_succ, low, writeUp, Option.map_bind]
        refine congrArg (Option.bind _) (funext fun next => ?_)
        rw [ih _ _ (by omega), Nat.div_div_eq_div_mul, ← Nat.pow_succ', Nat.add_sub_add_right]
        refine congrArg (Option.map · _) (funext fun last => ?_)
        rw [Int.natCast_succ, Int.add_assoc, Int.add_comm 1]

theorem zerosUp_eq (d : Nat) (idx : Int) (buf : List Char) :
    zerosUp d idx buf =
      (writeUp (List.replicate d '0') idx buf).map fun buf => (buf, idx + d) := by
  induction d generalizing idx buf with
  | zero =>
      rw [Int.natCast_zero, Int.add_zero]
      rfl
  | succ d ih =>
      rw [zerosUp, List.replicate_succ, writeUp, Option.map_bind]
      refine congrArg (Option.bind _) (funext fun next => ?_)
      rw [ih]
      refine congrArg (Option.map · _) (funext fun last => ?_)
      rw [Int.natCast_add, Int.natCast_one, Int.add_assoc, Int.add_comm 1]

theorem intUp_eq {rounds n : Nat} (hRounds : (digits n).length < rounds) (idx : Int)
    (hSize : idx + (digits n).length ≤ size) (buf : List Char) :
    intUp size rounds n idx buf =
      (writeUp (digits n) idx buf).map fun buf => (buf, idx + (digits n).length) := by
  induction rounds generalizing n idx buf with
  | zero => omega
  | succ rounds ih =>
      rw [intUp]
      rcases Nat.eq_zero_or_pos n with rfl | hPos
      · rw [if_neg (by omega), digits_zero, List.length_nil, Int.natCast_zero,
          Int.add_zero]
        rfl
      · rw [digits_of_pos hPos, List.length_cons] at hRounds hSize
        rw [if_pos ⟨by omega, by omega⟩, digitOf_eq, tdiv_ten, digits_of_pos hPos,
          List.length_cons, writeUp, Option.map_bind]
        refine congrArg (Option.bind _) (funext fun next => ?_)
        rw [ih (by omega) _ (by omega)]
        refine congrArg (Option.map · _) (funext fun last => ?_)
        rw [Int.natCast_add, Int.natCast_one, Int.add_assoc, Int.add_comm 1]

theorem fracDown_eq (d n : Nat) (p : Int) (buf : List Char) :
    fracDown d n p buf = (writeDown (low (min d (digits n).length) n) p buf).map fun buf =>
      (buf, p - (min d (digits n).length : Nat), ((n / 10 ^ d : Nat) : Int),
        d - min d (digits n).length) := by
  induction d generalizing n p buf with
  | zero =>
      rw [Nat.zero_min, Nat.pow_zero, Nat.div_one, Int.natCast_zero, Int.sub_zero]
      rfl
  | succ d ih =>
      rw [fracDown]
      rcases Nat.eq_zero_or_pos n with rfl | hPos
      · rw [if_neg (by omega), digits_zero, List.length_nil, Nat.min_zero,
          Nat.zero_div, Int.natCast_zero, Int.sub_zero]
        rfl
      · rw [if_pos (by omega), digitOf_eq, tdiv_ten, digits_of_pos hPos, List.length_cons,
          Nat.succ_min_succ, low, writeDown, Option.map_bind]
        refine congrArg (Option.bind _) (funext fun next => ?_)
        rw [ih, Nat.div_div_eq_div_mul, ← Nat.pow_succ', Nat.add_sub_add_right]
        refine congrArg (Option.map · _) (funext fun last => ?_)
        rw [Int.natCast_succ, Int.sub_sub, Int.add_comm 1]

theorem zerosDown_eq (d : Nat) (p : Int) (buf : List Char) :
    zerosDown d p buf =
      (writeDown (List.replicate d '0') p buf).map fun buf => (buf, p - d) := by
  induction d generalizing p buf with
  | zero =>
      rw [Int.natCast_zero, Int.sub_zero]
      rfl
  | succ d ih =>
      rw [zerosDown, List.replicate_succ, writeDown, Option.map_bind]
      refine congrArg (Option.bind _) (funext fun next => ?_)
      rw [ih]
      refine congrArg (Option.map · _) (funext fun last => ?_)
      rw [Int.natCast_add, Int.natCast_one, Int.sub_sub, Int.add_comm 1]

end Loops

section Formats

variable {val : Int} {v d a : Nat} {buf : List Char}

theorem writeSign_eq (hRange : -2 ^ 31 < val) (hBuf : buf ≠ []) :
    writeSign val buf =
      some (splice 0 (sign val) buf, ((sign val).length : Int), (val.natAbs : Int)) := by
  rw [writeSign, sign]
  by_cases hNeg : val < 0
  · have hWrite : write 0 '-' buf = some (splice 0 ['-'] buf) :=
      write_eq (List.length_pos_iff.mpr hBuf) '-'
    have hAbs : -val = (val.natAbs : Int) := by omega
    rw [if_pos hNeg, if_pos hNeg, hWrite, Option.bind_eq_bind, Option.bind_some,
      if_neg (by omega), hAbs]
    rfl
  · have hAbs : val = (val.natAbs : Int) := by omega
    rw [if_neg hNeg, if_neg hNeg, splice_nil, ← hAbs]
    rfl

/-- The decimals with their zeros, and what is done after them. -/
theorem frac_zeros_up {β : Type} {size idx : Int} (hSize : idx + d ≤ size) (v : Nat)
    (buf : List Char) (rest : List Char → Int → Int → Option β) :
    ((fracUp size d v idx buf).bind fun s =>
        (zerosUp s.2.2.2 s.2.1 s.1).bind fun t => rest t.1 t.2 s.2.2.1) =
      (writeUp (low d v) idx buf).bind fun buf =>
        rest buf (idx + d) ((v / 10 ^ d : Nat) : Int) := by
  have hIdx : idx + (min d (digits v).length : Nat) + (d - min d (digits v).length : Nat) =
      idx + d := by omega
  rw [fracUp_eq d v idx hSize, Option.bind_map]
  conv_rhs => rw [← low_min_append d v, writeUp_append, length_low, Option.bind_assoc]
  refine congrArg (Option.bind _) (funext fun next => ?_)
  rw [Function.comp_apply, zerosUp_eq, Option.bind_map, hIdx]
  rfl

theorem frac_zeros_down {β : Type} (d v : Nat) (p : Int) (buf : List Char)
    (rest : List Char → Int → Int → Option β) :
    ((fracDown d v p buf).bind fun s =>
        (zerosDown s.2.2.2 s.2.1 s.1).bind fun t => rest t.1 t.2 s.2.2.1) =
      (writeDown (low d v) p buf).bind fun buf =>
        rest buf (p - d) ((v / 10 ^ d : Nat) : Int) := by
  have hIdx : p - (min d (digits v).length : Nat) - (d - min d (digits v).length : Nat) =
      p - d := by omega
  rw [fracDown_eq, Option.bind_map]
  conv_rhs => rw [← low_min_append d v, writeDown_append, length_low, Option.bind_assoc]
  refine congrArg (Option.bind _) (funext fun next => ?_)
  rw [Function.comp_apply, zerosDown_eq, Option.bind_map, hIdx]
  rfl

/-- The digits are turned behind the sign, and the null comes after them. -/
def turn (idx : Int) (buf : List Char) : Option (List Char) :=
  write idx nul (reverse (if buf.head? = some '-' then 1 else 0) idx.toNat buf)

theorem int_turn {n : Nat} {idx : Int} (hn : n < 2 ^ 31) (hSize : idx + (digits n).length ≤ 15)
    (buf : List Char) :
    ((intUp 15 maxRounds n idx buf).bind fun s => turn s.2 s.1) =
      (writeUp (digits n) idx buf).bind (turn (idx + (digits n).length)) := by
  rw [intUp_eq (length_digits_lt (hn.trans (by decide))) idx hSize, Option.bind_map]
  rfl

theorem ftoa_run {dp : Nat} (hVal : val ≠ 0) (hRange : -2 ^ 31 < val)
    (hFits : (sign val).length + (body v d).length ≤ 15) (hBuf : buf ≠ [])
    (hTrim : trimZeros dp val.natAbs = ((v : Int), d)) (hv : v < 2 ^ 31) :
    ftoa 16 val dp buf =
      (writeUp (body v d) (sign val).length (splice 0 (sign val) buf)).bind
        (turn ((sign val).length + (body v d).length)) := by
  rw [ftoa, if_neg hVal, writeSign_eq hRange hBuf, Option.bind_eq_bind, Option.bind_some]
  dsimp only
  rw [hTrim]
  dsimp only
  rw [body] at hFits ⊢
  by_cases hd : d > 0
  · rw [if_pos hd] at hFits ⊢
    rw [if_pos hd]
    rw [List.length_append, length_low, List.length_cons] at hFits
    have hDiv : v / 10 ^ d < 2 ^ 31 := (Nat.div_le_self v _).trans_lt hv
    refine (frac_zeros_up (by omega) v _ fun buf idx val =>
      (write idx '.' buf).bind fun buf => (intUp 15 maxRounds val (idx + 1) buf).bind fun s =>
        turn s.2 s.1).trans ?_
    rw [writeUp_append, Option.bind_assoc, length_low]
    refine congrArg (Option.bind _) (funext fun next => ?_)
    rw [writeUp, Option.bind_assoc]
    refine congrArg (Option.bind _) (funext fun next => ?_)
    rw [int_turn hDiv (by omega)]
    refine congrArg (fun p => Option.bind _ (turn p)) ?_
    rw [List.length_append, length_low, List.length_cons]
    omega
  · rw [if_neg hd] at hFits ⊢
    rw [if_neg hd]
    exact int_turn hv (show ((sign val).length : Int) + (digits v).length ≤ 15 by omega) _

theorem body_ne_nil (hv : 0 < v) (d : Nat) : body v d ≠ [] := by
  intro hNil
  rw [body] at hNil
  split_ifs at hNil
  · exact absurd hNil (List.append_ne_nil_of_right_ne_nil _ (List.cons_ne_nil _ _))
  · rw [digits_of_pos hv] at hNil
    cases hNil

/-- No digit looks like a sign. -/
theorem start_eq (hv : 0 < v) (val : Int) (d : Nat) (buf : List Char) :
    (if (splice 0 (sign val ++ body v d) buf).head? = some '-' then 1 else 0) =
      (sign val).length := by
  obtain ⟨c, cs, hBody⟩ := List.exists_cons_of_ne_nil (body_ne_nil hv d)
  have hMinus : c ≠ '-' := by
    have hMem : c ∈ body v d := hBody ▸ List.mem_cons_self
    exact ne_of_mem_of_not_mem hMem (minus_notMem_body v d)
  rw [splice, List.take_zero, List.nil_append, hBody, sign]
  by_cases hNeg : val < 0
  · rw [if_pos hNeg]
    rfl
  · rw [if_neg hNeg]
    exact if_neg fun hHead => hMinus (Option.some.inj hHead)

theorem splice_sign (val : Int) (cs buf : List Char) :
    splice (sign val).length cs (splice 0 (sign val) buf) = splice 0 (sign val ++ cs) buf := by
  have hAppend := splice_append_right (Nat.zero_le buf.length) (sign val) cs
  rwa [Nat.zero_add] at hAppend

theorem ftoa_eq {dp : Nat} (hVal : val ≠ 0) (hRange : -2 ^ 31 < val)
    (hFits : (sign val).length + (body v d).length ≤ 15) (hSize : buf.length = 16)
    (hTrim : trimZeros dp val.natAbs = ((v : Int), d)) (hPos : 0 < v) (hv : v < 2 ^ 31) :
    ftoa 16 val dp buf = some (splice 0 (sign val ++ (body v d).reverse ++ [nul]) buf) := by
  have hBuf : buf ≠ [] := List.ne_nil_of_length_pos (by omega)
  have hSign : (splice 0 (sign val) buf).length = buf.length := length_splice (by omega)
  have hBody : (splice 0 (sign val ++ (body v d).reverse) buf).length = buf.length :=
    length_splice (by rw [List.length_append, List.length_reverse]; omega)
  have hTurn := reverse_splice
    (show (sign val).length ≤ (splice 0 (sign val) buf).length by omega) (body v d)
  rw [splice_sign, splice_sign] at hTurn
  have hNul := splice_append_right (Nat.zero_le buf.length) (sign val ++ (body v d).reverse) [nul]
  rw [Nat.zero_add, List.length_append, List.length_reverse] at hNul
  rw [ftoa_run hVal hRange hFits hBuf hTrim hv, writeUp_eq (by omega), Option.bind_some,
    splice_sign, turn, start_eq hPos, ← Int.natCast_add, Int.toNat_natCast, hTurn,
    write_eq (by omega), hNul]

/-- The room that the fast version makes for the number. -/
def room (v d : Nat) : Nat := (digits v).length + if d > 0 then 1 else 0

theorem ftoa2_run {dp : Nat} (hVal : val ≠ 0) (hRange : -2 ^ 31 < val) (hBuf : buf ≠ [])
    (hTrim : trimZeros dp val.natAbs = ((v : Int), d)) (hPos : 0 < v) (hv : v < 2 ^ 31) :
    ftoa2 val dp buf =
      writeDown (nul :: body v d) ((sign val).length + room v d) (splice 0 (sign val) buf) := by
  have hTen : (digits v).length ≤ 10 := length_digits_le_iff.mpr (hv.trans (by decide))
  have hCount : count_digits v = (digits v).length := by
    rw [count_digits_pos hPos, Nat.min_eq_right hTen]
  rw [ftoa2, if_neg hVal, writeSign_eq hRange hBuf, Option.bind_eq_bind, Option.bind_some]
  dsimp only
  rw [hTrim]
  dsimp only
  rw [body, room, hCount, writeDown]
  by_cases hd : d > 0
  · rw [if_pos hd, if_pos hd, if_pos hd]
    have hNul : ((sign val).length : Int) + (digits v).length - 1 + 1 + 1 =
        (sign val).length + ((digits v).length + 1 : Nat) := by omega
    have hLast : ((sign val).length : Int) + (digits v).length - 1 + 1 =
        (sign val).length + ((digits v).length + 1 : Nat) - 1 := by omega
    have hDiv : v / 10 ^ d < 2 ^ 63 := (Nat.div_le_self v _).trans_lt (hv.trans (by decide))
    rw [hNul, hLast]
    refine congrArg (Option.bind _) (funext fun next => ?_)
    refine (frac_zeros_down d v _ next fun buf pEnd val =>
      (write pEnd '.' buf).bind (fillAll maxRounds val (pEnd - 1))).trans ?_
    rw [writeDown_append, length_low]
    refine congrArg (Option.bind _) (funext fun next => ?_)
    rw [writeDown]
    refine congrArg (Option.bind _) (funext fun next => ?_)
    exact fillAll_eq (length_digits_lt hDiv) _ next
  · rw [if_neg hd, if_neg hd, if_neg hd, Nat.add_zero, Int.sub_add_cancel]
    refine congrArg (Option.bind _) (funext fun next => ?_)
    exact fillAll_eq (length_digits_lt (hv.trans (by decide))) _ next

theorem ftoa2_eq {dp : Nat} (hVal : val ≠ 0) (hRange : -2 ^ 31 < val)
    (hFits : (sign val).length + (body v d).length ≤ 15) (hSize : buf.length = 16)
    (hTrim : trimZeros dp val.natAbs = ((v : Int), d)) (hPos : 0 < v) (hv : v < 2 ^ 31)
    (hRoom : (body v d).length = room v d) :
    ftoa2 val dp buf = some (splice 0 (sign val ++ (body v d).reverse ++ [nul]) buf) := by
  have hBuf : buf ≠ [] := List.ne_nil_of_length_pos (by omega)
  have hSign : (splice 0 (sign val) buf).length = buf.length := length_splice (by omega)
  have hLast : ((sign val).length : Int) + room v d =
      (sign val).length + (nul :: body v d).length - 1 := by
    rw [List.length_cons]
    omega
  rw [ftoa2_run hVal hRange hBuf hTrim hPos hv, hLast,
    writeDown_eq (by rw [List.length_cons]; omega), splice_sign, List.reverse_cons,
    List.append_assoc]

/-- A zero that there is no room for is written before the buffer or over the sign. -/
theorem ftoa2_ne {dp : Nat} (hVal : val ≠ 0) (hRange : -2 ^ 31 < val)
    (hFits : (sign val).length + (body v d).length ≤ 15) (hSize : buf.length = 16)
    (hTrim : trimZeros dp val.natAbs = ((v : Int), d)) (hPos : 0 < v) (hv : v < 2 ^ 31)
    (hRoom : room v d < (body v d).length) {last : List Char}
    (hRun : ftoa2 val dp buf = some last) :
    stringAt 0 last ≠ some (sign val ++ (body v d).reverse) := by
  have hBuf : buf ≠ [] := List.ne_nil_of_length_pos (by omega)
  have hSign : (splice 0 (sign val) buf).length = buf.length := length_splice (by omega)
  rw [ftoa2_run hVal hRange hBuf hTrim hPos hv] at hRun
  by_cases hOver : (sign val).length + room v d < (body v d).length
  · rw [writeDown_underflow (by omega) (by rw [List.length_cons]; omega)] at hRun
    cases hRun
  · have hOne := length_sign val
    have hLast : ((sign val).length : Int) + room v d =
        (0 : Nat) + (nul :: body v d).length - 1 := by
      rw [List.length_cons]
      omega
    have hNul : nul ∉ (body v d).reverse := fun hMem =>
      nul_notMem_body v d (List.mem_reverse.mp hMem)
    rw [hLast, writeDown_eq (by rw [List.length_cons]; omega), List.reverse_cons] at hRun
    rw [← Option.some.inj hRun, stringAt_splice (Nat.zero_le _) hNul]
    intro hSame
    have hLength := congrArg List.length (Option.some.inj hSame)
    rw [List.length_append] at hLength
    omega

end Formats

/-- What the fast version is to do. -/
def Agrees (val : Int) (dp : Nat) (buf : List Char) : Prop :=
  ∃ slow fast s, ftoa 16 val dp buf = some slow ∧ ftoa2 val dp buf = some fast ∧
    stringAt 0 slow = some s ∧ stringAt 0 fast = some s

theorem agrees_zero (dp : Nat) {buf : List Char} (hSize : buf.length = 16) :
    Agrees 0 dp buf := by
  have hWrite := write_zero (show 2 ≤ buf.length by omega)
  have hString : stringAt 0 (splice 0 (['0'] ++ [nul]) buf) = some ['0'] :=
    stringAt_splice (Nat.zero_le _) (by decide)
  exact ⟨_, _, ['0'], hWrite, hWrite, hString, hString⟩

theorem agrees_iff {val : Int} {dp : Nat} {buf : List Char} (hVal : val ≠ 0)
    (hRange : -2 ^ 31 < val ∧ val < 2 ^ 31) (hDp : dp ≤ 9) (hSize : buf.length = 16) :
    Agrees val dp buf ↔ dp ≤ (digits val.natAbs).length := by
  obtain ⟨v, d, hTrim, hPos, hLe, hd, hIff⟩ := trimZeros_spec (Int.natAbs_pos.mpr hVal) dp
  have hv : v < 2 ^ 31 := by omega
  have hTen : (digits v).length ≤ 10 := length_digits_le_iff.mpr (hv.trans (by decide))
  have hSign := length_sign val
  have hLength : (body v d).length = if d > 0 then max d (digits v).length + 1 else
      (digits v).length := by
    split_ifs with hZero
    · exact length_body hZero v
    · rw [body, if_neg hZero]
  have hFits : (sign val).length + (body v d).length ≤ 15 := by
    rw [hLength]
    split_ifs <;> omega
  have hSlow := ftoa_eq hVal hRange.1 hFits hSize hTrim hPos hv
  have hNul : nul ∉ sign val ++ (body v d).reverse := by
    rw [List.mem_append, List.mem_reverse]
    exact not_or.mpr ⟨nul_notMem_sign val, nul_notMem_body v d⟩
  have hString := stringAt_splice (Nat.zero_le buf.length) hNul
  rw [hIff]
  constructor
  · rintro ⟨slow, fast, s, hRun, hFast, hLeft, hRight⟩
    rw [← Option.some.inj (hSlow.symm.trans hRun), hString] at hLeft
    by_contra hMany
    have hRoom : room v d < (body v d).length := by
      rw [hLength, room]
      split_ifs <;> omega
    exact ftoa2_ne hVal hRange.1 hFits hSize hTrim hPos hv hRoom hFast (hRight.trans hLeft.symm)
  · intro hFew
    have hRoom : (body v d).length = room v d := by
      rw [hLength, room]
      split_ifs <;> omega
    exact ⟨_, _, _, hSlow, ftoa2_eq hVal hRange.1 hFits hSize hTrim hPos hv hRoom, hString, hString⟩

/-- The two formatters agree if and only if the first digit is not behind the first
decimal: a zero after the point has no room. -/
theorem ftoa2_agrees_iff (val : Int) (dp : Nat) (buf : List Char)
    (hRange : -2 ^ 31 < val ∧ val < 2 ^ 31) (hDp : dp ≤ 9) (hSize : buf.length = 16) :
    (∃ slow fast s, ftoa 16 val dp buf = some slow ∧ ftoa2 val dp buf = some fast ∧
      stringAt 0 slow = some s ∧ stringAt 0 fast = some s) ↔
    val = 0 ∨ dp = 0 ∨ 10 ^ (dp - 1) ≤ val.natAbs := by
  rcases eq_or_ne val 0 with rfl | hVal
  · exact iff_of_true (agrees_zero dp hSize) (Or.inl rfl)
  · refine (agrees_iff hVal hRange hDp hSize).trans ?_
    rw [or_iff_right hVal]
    cases dp with
    | zero => exact iff_of_true (Nat.zero_le _) (Or.inl rfl)
    | succ k =>
        rw [or_iff_right (Nat.succ_ne_zero k), Nat.add_sub_cancel, ← Nat.not_lt,
          Nat.lt_succ_iff, length_digits_le_iff, Nat.not_lt]

theorem ftoa2_agrees_cent :
    ∃ slow fast s, ftoa 16 (-1234567890) 2 (List.replicate 16 'x') = some slow ∧
      ftoa2 (-1234567890) 2 (List.replicate 16 'x') = some fast ∧
      stringAt 0 slow = some s ∧ stringAt 0 fast = some s :=
  (ftoa2_agrees_iff (-1234567890) 2 (List.replicate 16 'x') (by decide) (by decide)
    (by decide)).mpr (by decide)

/-- A zero is written before the buffer, or over the sign. -/
theorem ftoa2_disagrees :
    (ftoa 16 5 3 (List.replicate 16 'x')).bind (stringAt 0) = some ['.', '0', '0', '5'] ∧
      ftoa2 5 3 (List.replicate 16 'x') = none ∧
      (ftoa 16 (-5) 2 (List.replicate 16 'x')).bind (stringAt 0) = some ['-', '.', '0', '5'] ∧
      (ftoa2 (-5) 2 (List.replicate 16 'x')).bind (stringAt 0) = some ['.', '0', '5'] := by
  refine ⟨?_, ?_, ?_, ?_⟩ <;> decide

end CppPerf.Text
