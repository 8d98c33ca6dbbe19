import CppPerf.Prices.Price
import CppPerf.Semantics.Truncation

/-! What `GetInt64Price` says of the digits that it drops. The loop against an
overflow reports its last digit only. -/
namespace CppPerf.Prices

open Truncation

namespace GetInt64Price

/-- The mantissas that count as an overflow. -/
def Large (t : Int) : Prop := 0x7FFFFFFF ≤ t ∨ 0x7FFFFFFF ≤ -t

instance (t : Int) : Decidable (Large t) := inferInstanceAs (Decidable (_ ∨ _))

/-- The status of a price, and the price, tell the truth. -/
structure Truthful (i64Val : Int) (n : Nat) (rv : Dp) (price : LPACK) (d : Nat) : Prop where
  code : baseCode d = some price.wBase
  lVal_eq : price.lVal = truncate 10 i64Val n d
  modified_iff : rv = .MODIFIED ↔ ¬Same 10 i64Val n price.lVal d

/-- The loop drops `k + 1` digits, the last of them a zero, and others that are not. -/
structure Hidden (i64Val : Int) (n k : Nat) : Prop where
  lt : k < min n 8
  large : Large (i64Val.tdiv (10 ^ (n - 8 + k)))
  small : ¬Large (i64Val.tdiv (10 ^ (n - 8 + k + 1)))
  zero : 10 ∣ i64Val.tdiv (10 ^ (n - 8 + k))
  lost : ¬10 ^ (n - 8 + k) ∣ i64Val

variable {i64Val t : Int} {n d : Nat} {rv : Dp}

theorem tdiv_ten_pow (t : Int) (k : Nat) : (t.tdiv 10).tdiv (10 ^ k) = t.tdiv (10 ^ (k + 1)) := by
  rw [tdiv_tdiv _ _ (by decide), pow_succ']

theorem large_of_tdiv {k : Nat} (h : Large (t.tdiv (10 ^ k))) : Large t := by
  have hAbs := Int.natAbs_tdiv_le_natAbs t (10 ^ k)
  rw [Large] at h ⊢
  omega

theorem large_mono {j k : Nat} (hjk : j ≤ k) (h : Large (t.tdiv (10 ^ k))) :
    Large (t.tdiv (10 ^ j)) := by
  obtain ⟨c, rfl⟩ := Nat.exists_eq_add_of_le hjk
  rw [pow_add, ← tdiv_tdiv _ _ (Int.pow_nonneg (by decide))] at h
  exact large_of_tdiv h

theorem overflows_eq (h : t.natAbs < 2 ^ 63) : overflows t = some (decide (Large t)) := by
  rw [overflows]
  split_ifs with hPositive hMin
  · exact congrArg some (decide_eq_true (Or.inl hPositive)).symm
  · omega
  · refine congrArg some (decide_eq_decide.mpr ?_)
    rw [Large]
    omega

/-- The loop drops `k` of at most `n` digits, and reports the last one. -/
structure Dropped (t : Int) (n k : Nat) (rv rv' : Dp) : Prop where
  le : k ≤ n
  large : ∀ j < k, Large (t.tdiv (10 ^ j))
  last : k = n ∨ ¬Large (t.tdiv (10 ^ k))
  same : k = 0 → rv' = rv
  status : ∀ j, k = j + 1 → (rv' = .MODIFIED ↔ ¬10 ∣ t.tdiv (10 ^ j)) ∧ rv' ≠ .OVERFLOW

theorem Dropped.stop (h : n = 0 ∨ ¬Large t) (rv : Dp) : Dropped t n 0 rv rv where
  le := Nat.zero_le n
  large j hj := absurd hj (Nat.not_lt_zero j)
  last := by
    rw [pow_zero, Int.tdiv_one]
    exact h.imp_left Eq.symm
  same _ := rfl
  status j hj := absurd hj.symm (Nat.succ_ne_zero j)

theorem Dropped.digit {k : Nat} {rv' : Dp} (hLarge : Large t)
    (h : Dropped (t.tdiv 10) n k (if t.tmod 10 = 0 then .NOCHANGE else .MODIFIED) rv')
    (rv : Dp) : Dropped t (n + 1) (k + 1) rv rv' where
  le := Nat.succ_le_succ h.le
  large j hj := by
    cases j with
    | zero => rwa [pow_zero, Int.tdiv_one]
    | succ j =>
        rw [← tdiv_ten_pow]
        exact h.large j (Nat.lt_of_succ_lt_succ hj)
  last := by
    rw [← tdiv_ten_pow]
    exact h.last.imp_left (congrArg Nat.succ)
  same hZero := absurd hZero (Nat.succ_ne_zero k)
  status j hj := by
    obtain rfl := Nat.succ.inj hj
    cases k with
    | zero =>
        rw [h.same rfl, pow_zero, Int.tdiv_one, Int.dvd_iff_tmod_eq_zero]
        split_ifs with hDigit
        · exact ⟨iff_of_false (by decide) (not_not.mpr hDigit), by decide⟩
        · exact ⟨iff_of_true rfl hDigit, by decide⟩
    | succ k =>
        rw [← tdiv_ten_pow]
        exact h.status k rfl

/-- What the loop drops, and what it reports. -/
theorem avoidOverflow_spec (h : t.natAbs < 2 ^ 63) (n : Nat) (rv : Dp) :
    ∃ k rv', avoidOverflow n t rv = some (t.tdiv (10 ^ k), n - k, rv') ∧
      Dropped t n k rv rv' := by
  induction n generalizing t rv with
  | zero =>
      refine ⟨0, rv, ?_, .stop (Or.inl rfl) rv⟩
      rw [avoidOverflow, overflows_eq h, pow_zero, Int.tdiv_one]
      rfl
  | succ n ih =>
      rw [avoidOverflow, overflows_eq h, Option.bind_eq_bind, Option.bind_some]
      by_cases hLarge : Large t
      · have hAbs := Int.natAbs_tdiv_le_natAbs t 10
        rw [if_pos (decide_eq_true hLarge)]
        obtain ⟨k, rv', hRun, hDropped⟩ := ih (t := t.tdiv 10) (by omega)
          (if t.tmod 10 = 0 then Dp.NOCHANGE else Dp.MODIFIED)
        refine ⟨k + 1, rv', ?_, hDropped.digit hLarge rv⟩
        rw [hRun, tdiv_ten_pow, Nat.add_sub_add_right]
      · refine ⟨0, rv, ?_, .stop (Or.inr hLarge) rv⟩
        rw [if_neg fun h => hLarge (of_decide_eq_true h), pow_zero, Int.tdiv_one]
        rfl

/-- Unless the value is zero, the decimals that are not supported are dropped, and
the status is right so far. -/
theorem limitDecimals_spec (hVal : i64Val ≠ 0) (hn : n ≤ 17) :
    ∃ rv, limitDecimals i64Val n =
        some (i64Val.tdiv (10 ^ (n - 8)), ((min n 8 : Nat) : Int), rv) ∧
      rv ≠ .OVERFLOW ∧ (rv = .MODIFIED ↔ ¬10 ^ (n - 8) ∣ i64Val) := by
  have hMax : (maxDecimal : Int) = 8 := rfl
  rw [limitDecimals, hMax]
  by_cases hMore : (n : Int) > 8
  · have hPower : pow10 (((n : Int) - 8) % 2 ^ 16) = some (10 ^ (n - 8)) := by
      have hAll : ∀ i < 10, pow10 (i : Nat) = some (10 ^ i) := by decide
      have hIndex : ((n : Int) - 8) % 2 ^ 16 = ((n - 8 : Nat) : Int) := by omega
      rw [hIndex]
      exact hAll (n - 8) (by omega)
    have hMin : ((min n 8 : Nat) : Int) = 8 := by omega
    rw [if_pos hMore, if_pos hVal, hPower, hMin, Int.dvd_iff_tmod_eq_zero, Option.bind_eq_bind,
      Option.bind_some]
    by_cases hLost : i64Val.tmod (10 ^ (n - 8)) = 0
    · rw [if_neg (not_not.mpr hLost)]
      exact ⟨.NOCHANGE, rfl, by decide, iff_of_false (by decide) (not_not.mpr hLost)⟩
    · rw [if_pos hLost]
      exact ⟨.MODIFIED, rfl, by decide, iff_of_true rfl hLost⟩
  · have hZero : n - 8 = 0 := by omega
    have hMin : ((min n 8 : Nat) : Int) = n := by omega
    rw [if_neg hMore, hZero, hMin, pow_zero, Int.tdiv_one]
    exact ⟨.OK, rfl, by decide, iff_of_false (by decide) (not_not.mpr (one_dvd i64Val))⟩

/-- Zeros are removed, and no other digits. -/
theorem trimLoop_spec {minDp : Int} (hMin : 0 ≤ minDp) (rounds : Nat) (l : Int) (d : Nat) :
    ∃ c ≤ d, 10 ^ c ∣ l ∧ trimLoop minDp rounds l d = (l.tdiv (10 ^ c), ((d - c : Nat) : Int)) := by
  induction rounds generalizing l d with
  | zero => exact ⟨0, Nat.zero_le d, one_dvd l, by rw [pow_zero, Int.tdiv_one]; rfl⟩
  | succ rounds ih =>
      rw [trimLoop]
      split_ifs with hTrim
      · obtain ⟨e, rfl⟩ : ∃ e, d = e + 1 := ⟨d - 1, by omega⟩
        have hLess : ((e + 1 : Nat) : Int) - 1 = (e : Nat) := by omega
        obtain ⟨c, hc, hDvd, hRun⟩ := ih (l.tdiv 10) e
        refine ⟨c + 1, Nat.succ_le_succ hc, ?_, ?_⟩
        · rw [Nat.add_comm, pow_add_dvd_iff (by decide) l (by rwa [pow_one]), pow_one]
          exact Int.dvd_of_tmod_eq_zero hTrim.2
        · rw [hLess, hRun, tdiv_ten_pow, Nat.add_sub_add_right]
      · exact ⟨0, Nat.zero_le d, one_dvd l, by rw [pow_zero, Int.tdiv_one]; rfl⟩

theorem trim_spec (minDp : Int) {wBase : Nat} (hd : d ≤ 8) (hCode : baseCode d = some wBase)
    (l : Int) : ∃ c ≤ d, ∃ wBase', 10 ^ c ∣ l ∧ baseCode (d - c : Nat) = some wBase' ∧
      trim minDp ⟨wBase, l⟩ = some ⟨wBase', l.tdiv (10 ^ c)⟩ := by
  have hAll : ∀ d < 9, (baseCode (d : Nat)).map (fun w =>
      (decide (97 ≤ w ∧ w ≤ 122), Bc2DP[w - 97]?)) = some (true, some (d : Int)) := by decide
  have hTable := hAll d (by omega)
  rw [hCode, Option.map_some, Option.some.injEq, Prod.mk.injEq, decide_eq_true_iff] at hTable
  obtain ⟨⟨hFirst, hLast⟩, hDp⟩ := hTable
  have hLetter : (('a').toNat : Int) = 97 := rfl
  have hIndex : (wBase : Int) - 97 = ((wBase - 97 : Nat) : Int) := by omega
  rw [trim]
  dsimp only
  rw [hLetter, hIndex, Int.toNat_natCast]
  by_cases hMin : 0 ≤ minDp
  · obtain ⟨c, hc, hDvd, hRun⟩ := trimLoop_spec hMin (d - minDp).toNat l d
    obtain ⟨wBase', hCode'⟩ := baseCode_isSome (d := d - c) (by omega)
    refine ⟨c, hc, wBase', hDvd, hCode', ?_⟩
    rw [if_pos ⟨hMin, by omega⟩, if_neg (by omega), hDp, Option.bind_eq_bind, Option.bind_some,
      PriceTrimInPlace, hRun]
    dsimp only
    rw [hCode']
    rfl
  · refine ⟨0, Nat.zero_le d, wBase, one_dvd l, hCode, ?_⟩
    rw [if_neg fun h => hMin h.1, pow_zero, Int.tdiv_one]

/-- What a call does. The loop drops `k` digits. -/
structure Outcome (i64Val : Int) (n k : Nat) (rv : Dp) (price : LPACK) : Prop where
  le : k ≤ min n 8
  large : ∀ j < k, Large (i64Val.tdiv (10 ^ (n - 8 + j)))
  last : k = min n 8 ∨ ¬Large (i64Val.tdiv (10 ^ (n - 8 + k)))
  overflow : Large (i64Val.tdiv (10 ^ (n - 8 + k))) → rv = .OVERFLOW
  not_overflow : ¬Large (i64Val.tdiv (10 ^ (n - 8 + k))) → rv ≠ .OVERFLOW
  stored : ¬Large (i64Val.tdiv (10 ^ (n - 8 + k))) → ∃ d c, n = d + (n - 8 + k + c) ∧
    baseCode d = some price.wBase ∧ price.lVal = i64Val.tdiv (10 ^ (n - 8 + k + c)) ∧
    10 ^ c ∣ i64Val.tdiv (10 ^ (n - 8 + k))
  first_status : ¬Large (i64Val.tdiv (10 ^ (n - 8 + k))) → k = 0 →
    (rv = .MODIFIED ↔ ¬10 ^ (n - 8) ∣ i64Val)
  last_status : ¬Large (i64Val.tdiv (10 ^ (n - 8 + k))) → ∀ j, k = j + 1 →
    (rv = .MODIFIED ↔ ¬10 ∣ i64Val.tdiv (10 ^ (n - 8 + j)))

theorem tdiv_tdiv_ten (t : Int) (j k : Nat) :
    (t.tdiv (10 ^ j)).tdiv (10 ^ k) = t.tdiv (10 ^ (j + k)) := by
  rw [tdiv_tdiv _ _ (Int.pow_nonneg (by decide)), pow_add]

/-- A call stores what the loop leaves, and then removes zeros. -/
theorem run_eq (hVal : i64Val ≠ 0) {t' : Int} {m : Nat} {rv' : Dp}
    (hLimit : limitDecimals i64Val n = some (t, ((min n 8 : Nat) : Int), rv))
    (hLoop : avoidOverflow (min n 8) t rv = some (t', m, rv')) (minDp : Int) :
    GetInt64Price i64Val n minDp =
      (store t' m rv').bind fun s => (trim minDp s.2).map fun price => (s.1, price) := by
  obtain ⟨wBase, hCode⟩ := baseCode_isSome (d := min n 8) (by omega)
  rw [GetInt64Price, if_neg (by omega), hLimit, Option.bind_eq_bind, Option.bind_some]
  dsimp only
  rw [hCode, Option.bind_eq_bind, Option.bind_some, if_neg hVal, Int.toNat_natCast, hLoop,
    Option.bind_eq_bind, Option.bind_some]
  refine congrArg (Option.bind _) (funext fun s => ?_)
  cases trim minDp s.2 <;> rfl

theorem outcome (hVal : i64Val ≠ 0) (hRange : i64Val.natAbs < 2 ^ 63) (hn : n ≤ 17)
    (minDp : Int) :
    ∃ k rv price, GetInt64Price i64Val n minDp = some (rv, price) ∧
      Outcome i64Val n k rv price := by
  obtain ⟨rv, hLimit, hNot, hStatus⟩ := limitDecimals_spec hVal hn
  have hAbs (k : Nat) : (i64Val.tdiv (10 ^ k)).natAbs < 2 ^ 63 :=
    Nat.lt_of_le_of_lt (Int.natAbs_tdiv_le_natAbs _ _) hRange
  obtain ⟨k, rv', hLoop, hk, hLarge, hLast, hZero, hSucc⟩ :=
    avoidOverflow_spec (hAbs (n - 8)) (min n 8) rv
  rw [run_eq hVal hLimit hLoop]
  simp only [tdiv_tdiv_ten] at hLarge hLast hSucc ⊢
  rw [store, overflows_eq (hAbs _), Option.bind_eq_bind, Option.bind_some]
  by_cases hOver : Large (i64Val.tdiv (10 ^ (n - 8 + k)))
  · have hTrim : trim minDp ⟨NO_BASECODE, 0x7FFFFFFF⟩ = some ⟨NO_BASECODE, 0x7FFFFFFF⟩ :=
      if_neg fun h => absurd h.2 (by decide)
    refine ⟨k, .OVERFLOW, ⟨NO_BASECODE, 0x7FFFFFFF⟩, ?_, hk, hLarge, hLast, fun _ => rfl,
      fun h => absurd hOver h, fun h => absurd hOver h, fun h => absurd hOver h,
      fun h => absurd hOver h⟩
    rw [if_pos (decide_eq_true hOver)]
    exact congrArg (Option.map _) hTrim
  · obtain ⟨wBase, hCode⟩ := baseCode_isSome (d := min n 8 - k) (by omega)
    obtain ⟨c, hc, wBase', hDvd, hCode', hTrim⟩ :=
      trim_spec minDp (by omega) hCode (i64Val.tdiv (10 ^ (n - 8 + k)))
    rw [tdiv_tdiv_ten] at hTrim
    refine ⟨k, rv', ⟨wBase', i64Val.tdiv (10 ^ (n - 8 + k + c))⟩, ?_, hk, hLarge, hLast,
      fun h => absurd h hOver, fun _ => ?_, fun _ => ?_, fun _ hZeroK => ?_, fun _ j hj => ?_⟩
    · rw [if_neg fun h => hOver (of_decide_eq_true h), hCode]
      exact congrArg (Option.map _) hTrim
    · cases k with
      | zero => rwa [hZero rfl]
      | succ k => exact (hSucc k rfl).2
    · exact ⟨min n 8 - k - c, c, by omega, hCode', rfl, hDvd⟩
    · rw [hZero hZeroK]
      exact hStatus
    · exact (hSucc j hj).1

theorem Outcome.truthful_iff {k : Nat} {price : LPACK} (h : Outcome i64Val n k rv price)
    (hSmall : ¬Large (i64Val.tdiv (10 ^ (n - 8 + k)))) :
    (∃ d, Truthful i64Val n rv price d) ↔
      (rv = .MODIFIED ↔ ¬10 ^ (n - 8 + k) ∣ i64Val) := by
  obtain ⟨d, c, hn, hCode, hVal, hDvd⟩ := h.stored hSmall
  have hTruncate := truncate_add (B := 10) (by decide) i64Val d (n - 8 + k + c)
  have hSame := same_tdiv_iff (B := 10) (by decide) i64Val d (n - 8 + k + c)
  rw [← hn, pow_add_dvd_iff (by decide) i64Val hDvd, ← hVal] at hSame
  rw [← hn, ← hVal] at hTruncate
  constructor
  · rintro ⟨e, hTruthful⟩
    obtain rfl := baseCode_inj hTruthful.code hCode
    rw [hTruthful.modified_iff, hSame]
  · intro hStatus
    exact ⟨d, hCode, hTruncate.symm, hStatus.trans (not_congr hSame.symm)⟩

/-- Lost digits can only be hidden by the last zero of the loop. -/
theorem Outcome.eq_of_hidden {k j : Nat} {price : LPACK} (h : Outcome i64Val n k rv price)
    (hHidden : Hidden i64Val n j) : k = j + 1 := by
  have hLt := hHidden.lt
  rcases Nat.lt_trichotomy k (j + 1) with hLess | hEq | hMore
  · refine absurd ?_ (h.last.resolve_left (by omega))
    exact large_mono (by omega) hHidden.large
  · exact hEq
  · exact absurd (h.large (j + 1) hMore) hHidden.small

theorem zero_spec (n : Nat) (minDp : Int) : ∃ (d : Nat) (wBase : Nat),
    GetInt64Price 0 n minDp = some (.OK, ⟨wBase, 0⟩) ∧ baseCode d = some wBase := by
  obtain ⟨wBase, hCode⟩ := baseCode_isSome (d := min n 8) (by omega)
  have hLimit : limitDecimals 0 n = some (0, ((min n 8 : Nat) : Int), .OK) := by
    have hMax : (maxDecimal : Int) = 8 := rfl
    rw [limitDecimals, hMax]
    by_cases hMore : (n : Int) > 8
    · have hMin : ((min n 8 : Nat) : Int) = 8 := by omega
      rw [if_pos hMore, if_neg (not_not.mpr rfl), hMin]
    · have hMin : ((min n 8 : Nat) : Int) = n := by omega
      rw [if_neg hMore, hMin]
  refine ⟨min n 8, wBase, ?_, hCode⟩
  rw [GetInt64Price, if_neg (by omega), hLimit, Option.bind_eq_bind, Option.bind_some]
  dsimp only
  rw [hCode, Option.bind_eq_bind, Option.bind_some, if_pos rfl]
  rfl

end GetInt64Price

open GetInt64Price in
/-- The status tells the truth if and only if no zero hides digits that were lost. -/
theorem GetInt64Price_truthful_iff (i64Val : Int) (n : Nat) (minDp : Int)
    (hRange : -2 ^ 63 < i64Val ∧ i64Val < 2 ^ 63) (hn : n ≤ 17) :
    (∃ rv price, GetInt64Price i64Val n minDp = some (rv, price) ∧
      (rv ≠ .OVERFLOW → ∃ d, Truthful i64Val n rv price d)) ↔ ¬∃ k, Hidden i64Val n k := by
  by_cases hVal : i64Val = 0
  · subst hVal
    refine iff_of_true ?_ ?_
    · obtain ⟨rv, wBase, hRun, hCode⟩ := zero_spec n minDp
      refine ⟨.OK, ⟨wBase, 0⟩, hRun, fun _ => ⟨rv, hCode, ?_, iff_of_false (by decide) ?_⟩⟩
      · rw [truncate, Int.zero_mul, Int.zero_tdiv]
      · rw [Same, Int.zero_mul, Int.zero_mul]
        exact not_not.mpr rfl
    · rintro ⟨k, hHidden⟩
      have hLarge := hHidden.large
      rw [Int.zero_tdiv] at hLarge
      exact absurd hLarge (by decide)
  · obtain ⟨k, rv, price, hRun, h⟩ := outcome hVal (by omega) hn minDp
    constructor
    · rintro ⟨rv', price', hRun', hTrue⟩ ⟨j, hHidden⟩
      obtain ⟨rfl, rfl⟩ := Prod.mk.inj (Option.some.inj (hRun'.symm.trans hRun))
      obtain rfl := h.eq_of_hidden hHidden
      have hSmall := hHidden.small
      have hStatus := (h.truthful_iff hSmall).mp (hTrue (h.not_overflow hSmall))
      have hLast := h.last_status hSmall j rfl
      rw [← Nat.add_assoc, pow_succ_dvd_iff (by decide)] at hStatus
      exact hLast.mp (hStatus.mpr fun hBoth => hHidden.lost hBoth.1) hHidden.zero
    · intro hNone
      refine ⟨rv, price, hRun, fun hNot => ?_⟩
      have hSmall := mt h.overflow hNot
      rw [h.truthful_iff hSmall]
      cases k with
      | zero => exact h.first_status hSmall rfl
      | succ k =>
          rw [h.last_status hSmall k rfl, ← Nat.add_assoc, pow_succ_dvd_iff (by decide)]
          refine ⟨fun hDigit hBoth => hDigit hBoth.2, fun hLost hZero => hNone ⟨k, ?_⟩⟩
          exact ⟨h.le, h.large k (Nat.lt_succ_self k), hSmall, hZero,
            fun hDvd => hLost ⟨hDvd, hZero⟩⟩

open GetInt64Price in
/-- Nine of 17 decimals are lost, and reported. -/
theorem GetInt64Price_truthful_seventeen :
    ∃ rv price, GetInt64Price 12345678901234567 (17 : Nat) 0 = some (rv, price) ∧
      (rv ≠ .OVERFLOW → ∃ d, Truthful 12345678901234567 17 rv price d) := by
  refine (GetInt64Price_truthful_iff 12345678901234567 17 0 (by decide) (by decide)).mpr ?_
  rintro ⟨k, hHidden⟩
  exact absurd (large_mono (Nat.le_add_right 9 k) hHidden.large) (by decide)

open GetInt64Price in
/-- The lost digit of 3000.00000001 is hidden by two zeros. -/
theorem GetInt64Price_hides :
    GetInt64Price 300000000001 (8 : Nat) (-1) = some (.NOCHANGE, ⟨('p').toNat, 300000000⟩) ∧
      ¬Same 10 300000000001 8 300000000 5 ∧
      ¬∃ rv price, GetInt64Price 300000000001 (8 : Nat) (-1) = some (rv, price) ∧
        (rv ≠ .OVERFLOW → ∃ d, Truthful 300000000001 8 rv price d) := by
  have hRun : GetInt64Price 300000000001 (8 : Nat) (-1) =
      some (.NOCHANGE, ⟨('p').toNat, 300000000⟩) := by decide
  refine ⟨hRun, by decide, ?_⟩
  rintro ⟨rv, price, hEq, hTrue⟩
  obtain ⟨rfl, rfl⟩ := Prod.mk.inj (Option.some.inj (hEq.symm.trans hRun))
  obtain ⟨d, hTruthful⟩ := hTrue (by decide)
  obtain rfl : d = 5 := baseCode_inj hTruthful.code rfl
  exact absurd (hTruthful.modified_iff.mpr (by decide)) (by decide)

end CppPerf.Prices
