import CppPerf.Semantics.Loops
import CppPerf.Semantics.Orbit
import CppPerf.Semantics.OrderedMap
import CppPerf.Semantics.RingWindow
import CppPerf.Sequences.PoisonousPlants
import Mathlib.Data.List.Lex

/-! `prisonAfterNDays` of `hashtable.cpp`. Reading outside of a container fails, and so does a
day that is no `int`. -/
namespace CppPerf.Sequences.PrisonCells

open Function Loops Orbit Ordered

/-- The configuration of the next day, with `size` as the position of the last cell. -/
def next_day (size : Int) (cells : List Int) : Option (List Int) :=
  (List.range' 1 (size - 1).toNat).foldlM (fun tomorrow k => do
    let before ← cells[k - 1]?
    let behind ← cells[k + 1]?
    return if before = behind then tomorrow.set k 1 else tomorrow)
    (List.replicate (size + 1).toNat 0)

/-- The loop over the days from `n` on, of which so many rounds are left. -/
def days (size N : Int) : (rounds : Nat) → (n : Int) → (cells : List Int) →
    (pattern_recurring : OrderedMap (List Int) Int) → (patterns : List (List Int)) →
    Option (List Int)
  | 0, _, _, _, patterns => patterns.getLast?
  | rounds + 1, n, cells, pattern_recurring, patterns => do
      let tomorrow ← next_day size cells
      match pattern_recurring.lookup tomorrow with
      | none => do
          let m ← next n
          days size N rounds m (tomorrow ++ cells.drop tomorrow.length)
            (pattern_recurring.set tomorrow n) (patterns ++ [tomorrow])
      | some found =>
          let N := (N - (found - 1)).tmod (n - found)
          if N = 0 then patterns.getLast? else atInt patterns (N - 1 + found - 1)

def prisonAfterNDays (cells : List Int) (N : Int) : Option (List Int) :=
  let size := int cells.length
  if size < 3 then some cells
  else days (size - 1) N N.toNat 1 cells OrderedMap.empty []

/-- The rule: a cell is occupied if its two neighbours are alike. The first and the last one
have one neighbour only and are vacant. -/
def one_day (cells : List Int) : List Int :=
  cells.mapIdx fun k _ =>
    if 0 < k ∧ k + 1 < cells.length ∧ cells[k - 1]? = cells[k + 1]? then 1 else 0

variable {cells x : List Int} {n rounds : Nat}

@[simp] theorem length_one_day (cells : List Int) : (one_day cells).length = cells.length := by
  rw [one_day, List.length_mapIdx]

theorem length_iterate (n : Nat) (x : List Int) : (one_day^[n] x).length = x.length := by
  induction n with
  | zero => rfl
  | succ n ih => rw [iterate_succ_apply', length_one_day, ih]

theorem getElem?_one_day {k : Nat} (hk : k < cells.length) : (one_day cells)[k]? =
    some (if 0 < k ∧ k + 1 < cells.length ∧ cells[k - 1]? = cells[k + 1]? then 1 else 0) := by
  rw [one_day, List.getElem?_mapIdx, List.getElem?_eq_getElem hk]
  rfl

theorem take_succ_one_day {k : Nat} (hk : k < cells.length) : (one_day cells).take (k + 1) =
    (one_day cells).take k ++
      [if 0 < k ∧ k + 1 < cells.length ∧ cells[k - 1]? = cells[k + 1]? then 1 else 0] := by
  rw [List.take_add_one, getElem?_one_day hk]
  rfl

/-- The cells in front of `k` are those of the rule, and the others are still vacant. -/
def Filled (cells : List Int) (k : Nat) (tomorrow : List Int) : Prop :=
  tomorrow = (one_day cells).take k ++ List.replicate (cells.length - k) 0

theorem next_cell_spec {k : Nat} {tomorrow : List Int} (hLow : 1 ≤ k) (hHigh : k + 1 < cells.length)
    (hFilled : Filled cells k tomorrow) :
    ∃ tomorrow', (do
      let before ← cells[k - 1]?
      let behind ← cells[k + 1]?
      return if before = behind then tomorrow.set k 1 else tomorrow : Option (List Int)) =
        some tomorrow' ∧ Filled cells (k + 1) tomorrow' := by
  obtain rfl := hFilled
  have hTake : ((one_day cells).take k).length = k := by
    rw [List.length_take, length_one_day]
    omega
  have hZero : List.replicate (cells.length - k) (0 : Int) =
      0 :: List.replicate (cells.length - (k + 1)) 0 := by
    rw [← List.replicate_succ]
    congr 1
    omega
  refine ⟨_, by
    rw [List.getElem?_eq_getElem (show k - 1 < cells.length by omega),
      List.getElem?_eq_getElem hHigh]
    rfl, ?_⟩
  rw [Filled, take_succ_one_day (by omega), hZero,
    List.getElem?_eq_getElem (show k - 1 < cells.length by omega), List.getElem?_eq_getElem hHigh,
    List.append_assoc]
  simp only [Option.some.injEq]
  split_ifs with hSame hRule hRule
  · rw [List.set_append_right _ _ (by omega), hTake, Nat.sub_self]
    rfl
  · exact absurd ⟨by omega, hHigh, hSame⟩ hRule
  · exact absurd hRule.2.2 hSame
  · rfl

theorem next_day_eq (h : 3 ≤ cells.length) :
    next_day (cells.length - 1) cells = some (one_day cells) := by
  obtain ⟨m, hm⟩ : ∃ m, cells.length = m + 2 := ⟨cells.length - 2, by omega⟩
  have hStart : Filled cells 1 (List.replicate cells.length 0) := by
    rw [Filled, take_succ_one_day (by omega), if_neg (by omega), hm]
    rfl
  obtain ⟨tomorrow, hRun, hLast⟩ := foldlM_range'_holds 1 m
    (fun k tomorrow hLow hHigh hFilled => next_cell_spec hLow (by omega) hFilled) hStart
  have hSize : (cells.length - 1 - 1 : Int).toNat = m ∧
      (cells.length - 1 + 1 : Int).toNat = cells.length := by omega
  rw [next_day, hSize.1, hSize.2, hRun, hLast]
  have hVacant : cells.length - (1 + m) = 1 := by omega
  have hAll := take_succ_one_day (show 1 + m < cells.length by omega)
  rw [if_neg (by omega), List.take_of_length_le (by rw [length_one_day]; omega)] at hAll
  rw [hVacant]
  exact congrArg some hAll.symm

/-- What is known behind the day `n`. -/
structure Simulated (x : List Int) (n : Nat) (pattern_recurring : OrderedMap (List Int) Int)
    (patterns : List (List Int)) : Prop where
  patterns : patterns = (List.range n).map fun i => one_day^[i + 1] x
  recurring : ∀ s f, pattern_recurring.lookup s = some f ↔
    ∃ i < n, f = (i + 1 : Nat) ∧ one_day^[i + 1] x = s

variable {pattern_recurring : OrderedMap (List Int) Int} {patterns : List (List Int)}

theorem Simulated.start (x : List Int) : Simulated x 0 OrderedMap.empty [] where
  patterns := rfl
  recurring := fun s f => iff_of_false nofun (by simp)

theorem Simulated.apart (h : Simulated x n pattern_recurring patterns) {i j : Nat} (hi : i < n)
    (hj : j < n) (hSame : one_day^[i + 1] x = one_day^[j + 1] x) : i = j := by
  have hFirst := (h.recurring _ _).mpr ⟨i, hi, rfl, hSame⟩
  have hSecond := (h.recurring _ _).mpr ⟨j, hj, rfl, rfl⟩
  rw [hFirst, Option.some.injEq] at hSecond
  omega

theorem Simulated.next (h : Simulated x n pattern_recurring patterns)
    (hNew : pattern_recurring.lookup (one_day^[n + 1] x) = none) :
    Simulated x (n + 1) (pattern_recurring.set (one_day^[n + 1] x) (n + 1 : Nat))
      (patterns ++ [one_day^[n + 1] x]) where
  patterns := by rw [h.patterns, List.range_succ, List.map_append, List.map_singleton]
  recurring := by
    intro s f
    by_cases hKey : s = one_day^[n + 1] x
    · subst hKey
      rw [OrderedMap.lookup_set_self, Option.some.injEq]
      constructor
      · rintro rfl
        exact ⟨n, Nat.lt_succ_self n, rfl, rfl⟩
      · rintro ⟨i, hi, rfl, hSame⟩
        rcases Nat.lt_succ_iff_lt_or_eq.mp hi with hOld | rfl
        · rw [(h.recurring _ _).mpr ⟨i, hOld, rfl, hSame⟩] at hNew
          cases hNew
        · rfl
    · rw [OrderedMap.lookup_set_of_ne _ _ hKey, h.recurring]
      constructor
      · rintro ⟨i, hi, hf, hSame⟩
        exact ⟨i, Nat.lt_succ_of_lt hi, hf, hSame⟩
      · rintro ⟨i, hi, hf, rfl⟩
        rcases Nat.lt_succ_iff_lt_or_eq.mp hi with hOld | rfl
        · exact ⟨i, hOld, hf, rfl⟩
        · exact absurd rfl hKey

/-- Two days up to `N` have the same configuration. -/
def Repeats (x : List Int) (N : Nat) : Prop :=
  ∃ i j, 1 ≤ i ∧ i < j ∧ j ≤ N ∧ one_day^[i] x = one_day^[j] x

theorem Simulated.not_repeats (h : Simulated x n pattern_recurring patterns) : ¬Repeats x n := by
  rintro ⟨i, j, hi, hij, hj, hSame⟩
  obtain ⟨a, rfl⟩ := Nat.exists_eq_add_of_le' hi
  obtain ⟨b, rfl⟩ := Nat.exists_eq_add_of_le' (show 1 ≤ j by omega)
  have hEq := h.apart (by omega) (by omega) hSame
  omega

theorem Simulated.repeats_of_found (h : Simulated x n pattern_recurring patterns) {f : Int}
    (hFound : pattern_recurring.lookup (one_day^[n + 1] x) = some f) {N : Nat} (hN : n < N) :
    Repeats x N := by
  obtain ⟨i, hi, -, hSame⟩ := (h.recurring _ _).mp hFound
  exact ⟨i + 1, n + 1, by omega, by omega, hN, hSame⟩

theorem Simulated.firstReturn (h : Simulated x n pattern_recurring patterns) {i : Nat} (hi : i < n)
    (hSame : one_day^[i + 1] x = one_day^[n + 1] x) : FirstReturn one_day (one_day x) i n where
  lt := hi
  returns := hSame.symm
  apart := fun _ ha _ hb hEq => h.apart ha hb hEq

theorem Simulated.getElem?_patterns (h : Simulated x n pattern_recurring patterns) {i : Nat}
    (hi : i < n) : patterns[i]? = some (one_day^[i + 1] x) := by
  rw [h.patterns, List.getElem?_map, List.getElem?_range hi]
  rfl

/-- The day `N` has the configuration of the position to which it is brought back. -/
theorem Simulated.jump (h : Simulated x n pattern_recurring patterns) {i N : Nat} (hi : i < n)
    (hSame : one_day^[i + 1] x = one_day^[n + 1] x) (hN : n < N) {r : Int}
    (hr : r = ((N - i) % (n - i) : Nat)) :
    (if r = 0 then patterns.getLast? else atInt patterns (r - 1 + (i + 1 : Nat) - 1)) =
      some (one_day^[N] x) := by
  obtain ⟨q, rfl⟩ : ∃ q, N = i + q + 1 := ⟨N - i - 1, by omega⟩
  obtain ⟨p, rfl⟩ : ∃ p, n = i + p := ⟨n - i, by omega⟩
  have hMod := (h.firstReturn hi hSame).iterate_mod q
  rw [Nat.add_sub_cancel_left] at hMod
  rw [Nat.add_sub_cancel_left, show i + q + 1 - i = q + 1 by omega] at hr
  rw [iterate_succ_apply, ← hMod, ← iterate_succ_apply]
  rcases Ring.succ_mod_cases q (show 0 < p by omega) with ⟨hZero, hWhole⟩ | ⟨hNext, hInside⟩
  · rw [hZero] at hr
    rw [if_pos (show r = 0 from hr), List.getLast?_eq_getElem?, h.patterns, List.length_map,
      List.length_range, ← h.patterns, show i + p - 1 = i + q % p by omega]
    exact h.getElem?_patterns (by omega)
  · rw [hNext] at hr
    rw [if_neg (by omega), atInt, if_pos (by omega),
      show (r - 1 + (i + 1 : Nat) - 1).toNat = i + q % p by omega]
    exact h.getElem?_patterns (by omega)

/-- One round of the loop. -/
theorem days_succ (hx : 3 ≤ x.length) (N : Int) :
    days (x.length - 1) N (rounds + 1) (n + 1 : Nat) (one_day^[n] x) pattern_recurring patterns =
      match pattern_recurring.lookup (one_day^[n + 1] x) with
      | none => do
          let m ← Sequences.next (n + 1 : Nat)
          days (x.length - 1) N rounds m (one_day^[n + 1] x)
            (pattern_recurring.set (one_day^[n + 1] x) (n + 1 : Nat))
            (patterns ++ [one_day^[n + 1] x])
      | some found =>
          let N := (N - (found - 1)).tmod ((n + 1 : Nat) - found)
          if N = 0 then patterns.getLast? else atInt patterns (N - 1 + found - 1) := by
  have hLength := length_iterate n x
  have hNext := next_day_eq (show 3 ≤ (one_day^[n] x).length by omega)
  rw [hLength, ← iterate_succ_apply' one_day] at hNext
  rw [days, hNext, Option.bind_eq_bind, Option.bind_some,
    List.drop_of_length_le (by rw [length_iterate, length_iterate]), List.append_nil]

theorem days_found (hx : 3 ≤ x.length) (h : Simulated x n pattern_recurring patterns) {N : Nat}
    (hN : n < N) {found : Int}
    (hFound : pattern_recurring.lookup (one_day^[n + 1] x) = some found) :
    days (x.length - 1) N (rounds + 1) (n + 1 : Nat) (one_day^[n] x) pattern_recurring patterns =
      some (one_day^[N] x) := by
  obtain ⟨i, hi, rfl, hSame⟩ := (h.recurring _ _).mp hFound
  rw [days_succ hx, hFound]
  apply h.jump hi hSame hN
  rw [show (N : Int) - ((i + 1 : Nat) - 1) = (N - i : Nat) by omega,
    show ((n + 1 : Nat) : Int) - (i + 1 : Nat) = (n - i : Nat) by omega]
  rfl

theorem days_new (hx : 3 ≤ x.length) (N : Int) (hInt : n + 2 < 2 ^ 31)
    (hNew : pattern_recurring.lookup (one_day^[n + 1] x) = none) :
    days (x.length - 1) N (rounds + 1) (n + 1 : Nat) (one_day^[n] x) pattern_recurring patterns =
      days (x.length - 1) N rounds (n + 1 + 1 : Nat) (one_day^[n + 1] x)
        (pattern_recurring.set (one_day^[n + 1] x) (n + 1 : Nat))
        (patterns ++ [one_day^[n + 1] x]) := by
  have hCount : Sequences.next (n + 1 : Nat) = some ((n + 1 + 1 : Nat) : Int) :=
    if_pos (by omega)
  rw [days_succ hx, hNew]
  simp only [hCount, Option.bind_eq_bind, Option.bind_some]

theorem days_eq (hx : 3 ≤ x.length) (h : Simulated x n pattern_recurring patterns) {N : Nat}
    (hRounds : N = n + rounds) (hN : 1 ≤ N) (hInt : n + 1 < 2 ^ 31)
    (hEnd : N < 2 ^ 31 - 1 ∨ N < 2 ^ 31 ∧ Repeats x N) :
    days (x.length - 1) N rounds (n + 1 : Nat) (one_day^[n] x) pattern_recurring patterns =
      some (one_day^[N] x) := by
  induction rounds generalizing n pattern_recurring patterns with
  | zero =>
      obtain ⟨m, rfl⟩ := Nat.exists_eq_add_of_le' hN
      obtain rfl : m + 1 = n := hRounds
      rw [days, List.getLast?_eq_getElem?, h.patterns, List.length_map, List.length_range,
        ← h.patterns]
      exact h.getElem?_patterns (Nat.lt_succ_self m)
  | succ rounds ih =>
      cases hLookup : pattern_recurring.lookup (one_day^[n + 1] x) with
      | some found => exact days_found hx h (by omega) hLookup
      | none =>
          have hNext := h.next hLookup
          -- A day that comes back later on is an `int` and comes after this one.
          have hCount : n + 2 < 2 ^ 31 := by
            rcases hEnd with hSmall | ⟨hSmall, hRepeats⟩
            · omega
            · by_contra hLast
              obtain rfl : N = n + 1 := by omega
              exact hNext.not_repeats hRepeats
          rw [days_new hx N hCount hLookup]
          exact ih hNext (by omega) hCount

theorem days_eq_none (hx : 3 ≤ x.length) (h : Simulated x n pattern_recurring patterns) {N : Nat}
    (hRounds : N = n + rounds) (hInt : n + 1 < 2 ^ 31) (hN : N = 2 ^ 31 - 1)
    (hEnd : ¬Repeats x N) :
    days (x.length - 1) N rounds (n + 1 : Nat) (one_day^[n] x) pattern_recurring patterns =
      none := by
  induction rounds generalizing n pattern_recurring patterns with
  | zero => omega
  | succ rounds ih =>
      cases hLookup : pattern_recurring.lookup (one_day^[n + 1] x) with
      | some found => exact absurd (h.repeats_of_found hLookup (by omega)) hEnd
      | none =>
          by_cases hCount : n + 2 < 2 ^ 31
          · rw [days_new hx N hCount hLookup]
            exact ih (h.next hLookup) (by omega) hCount
          · have hOver : Sequences.next (n + 1 : Nat) = none := if_neg (by omega)
            rw [days_succ hx, hLookup]
            simp only [hOver, Option.bind_eq_bind, Option.bind_none]

theorem prisonAfterNDays_eq (h : 3 ≤ cells.length) (hInt : cells.length < 2 ^ 31) (N : Int) :
    prisonAfterNDays cells N =
      days (cells.length - 1) N N.toNat (0 + 1 : Nat) cells OrderedMap.empty [] := by
  have hSize : int cells.length = cells.length := Int.bmod_eq_of_le (by omega) (by omega)
  rw [prisonAfterNDays, hSize]
  exact if_neg (by omega)

/-- With fewer than `2 ^ 31` cells the result is that of `N` days, unless the counter of the days
leaves the range of `int`. -/
theorem prisonAfterNDays_eq_iterate_iff (cells : List Int) (N : Int) (hSize : 3 ≤ cells.length)
    (hInt : cells.length < 2 ^ 31) (hN : 1 ≤ N) (hMax : N < 2 ^ 31) :
    prisonAfterNDays cells N = some (one_day^[N.toNat] cells) ↔
      N < 2 ^ 31 - 1 ∨ Repeats cells N.toNat := by
  obtain ⟨n, rfl⟩ := Int.eq_ofNat_of_zero_le (show 0 ≤ N by omega)
  rw [prisonAfterNDays_eq hSize hInt, Int.toNat_natCast]
  constructor
  · intro hRun
    by_contra hEnd
    rw [not_or] at hEnd
    have hNone := days_eq_none hSize (Simulated.start cells) (Nat.zero_add n).symm (by decide)
      (by omega) hEnd.2
    rw [iterate_zero, id] at hNone
    rw [hNone] at hRun
    cases hRun
  · intro hEnd
    exact days_eq hSize (Simulated.start cells) (Nat.zero_add n).symm (by omega) (by decide)
      (hEnd.imp (by omega) fun hRepeats => ⟨by omega, hRepeats⟩)

theorem prisonAfterNDays_eq_iterate_iff_seven :
    prisonAfterNDays [0, 1, 0, 1, 1, 0, 0, 1] 7 = some [0, 0, 1, 1, 0, 0, 0, 0] := by
  have hRun := (prisonAfterNDays_eq_iterate_iff [0, 1, 0, 1, 1, 0, 0, 1] 7 (by decide) (by decide)
    (by decide) (by decide)).mpr (Or.inl (by decide))
  have hDays : one_day^[(7 : Int).toNat] [0, 1, 0, 1, 1, 0, 0, 1] = [0, 0, 1, 1, 0, 0, 0, 0] := by
    decide
  rwa [hDays] at hRun

/-- The number of cells is no `int`: the cells come back as they are. -/
theorem not_prisonAfterNDays_eq_iterate : ¬∀ (cells : List Int) (N : Int), 3 ≤ cells.length →
    (∀ c ∈ cells, c = 0 ∨ c = 1) → 1 ≤ N → N < 2 ^ 31 →
      prisonAfterNDays cells N = some (one_day^[N.toNat] cells) := by
  intro hAll
  have hLength : (List.replicate (2 ^ 31) (0 : Int)).length = 2 ^ 31 := List.length_replicate
  have hRun := hAll (List.replicate (2 ^ 31) 0) 1 (by rw [hLength]; decide)
    (fun c hc => Or.inl (List.eq_of_mem_replicate hc)) (by decide) (by decide)
  have hSame : prisonAfterNDays (List.replicate (2 ^ 31) 0) 1 =
      some (List.replicate (2 ^ 31) 0) := by
    rw [prisonAfterNDays, hLength]
    exact if_pos (by decide)
  rw [hSame, Option.some.injEq] at hRun
  have hSecond := congrArg (fun l : List Int => l[1]?) hRun
  have hDay : (1 : Int).toNat = 1 := rfl
  simp only [hDay, iterate_one] at hSecond
  rw [getElem?_one_day (by rw [hLength]; decide), hLength,
    List.getElem?_replicate_of_lt (by decide), List.getElem?_replicate_of_lt (by decide),
    List.getElem?_replicate_of_lt (by decide), if_pos (by decide)] at hSecond
  cases hSecond

end CppPerf.Sequences.PrisonCells
