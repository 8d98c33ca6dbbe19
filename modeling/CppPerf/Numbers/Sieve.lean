import Mathlib.Data.List.Basic
import Mathlib.Data.Nat.Prime.Basic
import Mathlib.Tactic.Common

/-! The sieve of `mathlib_primes.h`. A position is a `size_t` and does not overflow. -/
namespace CppPerf.Numbers

/-- The loop over the multiples of `i`, which is not zero, from `j` on. -/
def crossOut (i j : Nat) (is_primes : List Bool) : List Bool :=
  if j < is_primes.length ∧ 0 < i then crossOut i (j + i) (is_primes.set j false)
  else is_primes
  termination_by is_primes.length - j
  decreasing_by
    rw [List.length_set]
    omega

theorem length_crossOut (i j : Nat) (is_primes : List Bool) :
    (crossOut i j is_primes).length = is_primes.length := by
  fun_induction crossOut i j is_primes with
  | case1 j is_primes h ih => rw [ih, List.length_set]
  | case2 j is_primes h => rfl

/-- The loop over the numbers from `i` on. -/
def sieve (i : Nat) (is_primes : List Bool) (primes : List Int) : List Int :=
  if h : i < is_primes.length then
    if is_primes[i] then sieve (i + 1) (crossOut i (i + i) is_primes) (primes ++ [(i : Int)])
    else sieve (i + 1) is_primes primes
  else primes
  termination_by is_primes.length - i
  decreasing_by
    · rw [length_crossOut]
      omega
    · omega

/-- The flags of 0 and 1 are written, so that there must be at least two. -/
def make_primes (N : Nat) : List Int :=
  let is_primes := List.replicate N true
  let is_primes := (is_primes.set 1 false).set 0 false
  sieve 2 is_primes []

variable {N i j k : Nat} {is_primes : List Bool}

theorem crossOut_iff (hi : 0 < i) : (crossOut i j is_primes)[k]? = some true ↔
    is_primes[k]? = some true ∧ ¬(j ≤ k ∧ i ∣ k - j) := by
  fun_induction crossOut i j is_primes with
  | case1 j is_primes h ih =>
      rw [ih]
      by_cases hSame : j = k
      · subst hSame
        simp [h.1]
      · rw [List.getElem?_set_ne hSame]
        refine and_congr_right fun _ => not_congr ?_
        constructor
        · rintro ⟨hLe, hDvd⟩
          refine ⟨by omega, ?_⟩
          have hSplit : k - j = k - (j + i) + i := by omega
          rw [hSplit]
          exact Nat.dvd_add hDvd (dvd_refl i)
        · rintro ⟨hLe, hDvd⟩
          have hStep : i ≤ k - j := Nat.le_of_dvd (by omega) hDvd
          refine ⟨by omega, ?_⟩
          rw [← Nat.sub_sub]
          exact Nat.dvd_sub hDvd (dvd_refl i)
  | case2 j is_primes h =>
      refine (and_iff_left_of_imp fun hTrue => ?_).symm
      have hBound := (List.getElem?_eq_some_iff.mp hTrue).1
      omega

/-- The flags that are left are those of the numbers without a smaller prime factor so far. -/
structure Sieved (N i : Nat) (is_primes : List Bool) : Prop where
  length_eq : is_primes.length = N
  iff : ∀ k < N, is_primes[k]? = some true ↔ 2 ≤ k ∧ ∀ q, q.Prime → q < i → q ∣ k → q = k

theorem Sieved.prime_iff (h : Sieved N i is_primes) (hTwo : 2 ≤ i) (hLt : i < N) :
    is_primes[i]? = some true ↔ i.Prime := by
  rw [h.iff i hLt]
  constructor
  · rintro ⟨-, hNone⟩
    have hFac : i.minFac = i := by
      by_contra hNe
      have hLess := lt_of_le_of_ne (Nat.minFac_le (by omega)) hNe
      exact hNe (hNone _ (Nat.minFac_prime (by omega)) hLess (Nat.minFac_dvd i))
    exact Nat.prime_def_minFac.mpr ⟨hTwo, hFac⟩
  · intro hPrime
    exact ⟨hTwo, fun q hq _ hDvd => (Nat.prime_dvd_prime_iff_eq hq hPrime).mp hDvd⟩

theorem Sieved.prime (h : Sieved N i is_primes) (hPrime : i.Prime) :
    Sieved N (i + 1) (crossOut i (i + i) is_primes) := by
  refine ⟨(length_crossOut ..).trans h.length_eq, fun k hk => ?_⟩
  have hPos := hPrime.pos
  rw [crossOut_iff hPos, h.iff k hk, and_assoc]
  refine and_congr_right fun hk2 => ?_
  constructor
  · rintro ⟨hOld, hNot⟩ q hq hLt hDvd
    rcases Nat.lt_or_eq_of_le (Nat.lt_succ_iff.mp hLt) with hLt | rfl
    · exact hOld q hq hLt hDvd
    · obtain ⟨c, rfl⟩ := hDvd
      by_contra hNe
      have hTwice : 2 ≤ c := by
        by_contra hLess
        have hc : c = 0 ∨ c = 1 := by omega
        rcases hc with rfl | rfl
        · omega
        · exact hNe (Nat.mul_one q).symm
      have hLe : q + q ≤ q * c := by
        have hMul := Nat.mul_le_mul_left q hTwice
        omega
      exact hNot ⟨hLe, Nat.dvd_sub (dvd_mul_right q c) (Dvd.intro_left 2 (Nat.two_mul q))⟩
  · intro hNone
    refine ⟨fun q hq hLt => hNone q hq (by omega), ?_⟩
    rintro ⟨hLe, hDvd⟩
    have hBoth : i ∣ k := by
      rw [← Nat.sub_add_cancel hLe]
      exact Nat.dvd_add hDvd (Dvd.intro_left 2 (Nat.two_mul i))
    have hSame := hNone i hPrime (by omega) hBoth
    omega

theorem Sieved.composite (h : Sieved N i is_primes) (hNot : ¬i.Prime) :
    Sieved N (i + 1) is_primes := by
  refine ⟨h.length_eq, fun k hk => ?_⟩
  rw [h.iff k hk]
  refine and_congr_right fun _ => ?_
  constructor
  · intro hOld q hq hLt
    apply hOld q hq
    rcases Nat.lt_or_eq_of_le (Nat.lt_succ_iff.mp hLt) with hLt | rfl
    · exact hLt
    · exact absurd hq hNot
  · exact fun hNew q hq hLt => hNew q hq (by omega)

/-- The primes below a bound, in increasing order. -/
def primesBelow (N : Nat) : List Nat := (List.range N).filter Nat.Prime

theorem primesBelow_succ (i : Nat) :
    primesBelow (i + 1) = primesBelow i ++ if i.Prime then [i] else [] := by
  rw [primesBelow, List.range_succ, List.filter_append, primesBelow]
  split_ifs with hPrime <;> simp [hPrime]

theorem sieve_eq (h : Sieved N i is_primes) (hTwo : 2 ≤ i) (hLe : i ≤ N) :
    sieve i is_primes ((primesBelow i).map Nat.cast) = (primesBelow N).map Nat.cast := by
  induction hMeasure : N - i generalizing i is_primes with
  | zero =>
      obtain rfl : i = N := by omega
      rw [sieve, dif_neg (by rw [h.length_eq]; omega)]
  | succ n ih =>
      have hLt : i < N := by omega
      have hBound : i < is_primes.length := h.length_eq ▸ hLt
      have hPrime := h.prime_iff hTwo hLt
      rw [List.getElem?_eq_getElem hBound, Option.some.injEq] at hPrime
      have hNext := primesBelow_succ i
      rw [sieve, dif_pos hBound]
      split_ifs at hNext ⊢ with hFlag hp hp
      · rw [← ih (h.prime hp) (by omega) hLt (by omega), hNext, List.map_append]
        rfl
      · exact absurd (hPrime.mp hFlag) hp
      · exact absurd (hPrime.mpr hp) hFlag
      · rw [← ih (h.composite hp) (by omega) hLt (by omega), hNext, List.append_nil]

/-- The sieve leaves the primes. -/
theorem make_primes_eq (hTwo : 2 ≤ N) : make_primes N = (primesBelow N).map Nat.cast := by
  have hStart : Sieved N 2 (((List.replicate N true).set 1 false).set 0 false) := by
    refine ⟨by simp, fun k hk => ?_⟩
    have hNone : ∀ q : Nat, q.Prime → q < 2 → q ∣ k → q = k :=
      fun q hq hLt => absurd hq.two_le (by omega)
    rw [and_iff_left hNone]
    rcases k with - | - | k
    · simp [List.getElem?_set]
    · simp [List.getElem?_set]
    · simp [hk]
  exact sieve_eq hStart le_rfl hTwo

theorem mem_primesBelow {p : Nat} : p ∈ primesBelow N ↔ p < N ∧ p.Prime := by
  simp [primesBelow]

theorem primesBelow_sorted (N : Nat) : (primesBelow N).Pairwise (· < ·) :=
  List.pairwise_lt_range.filter _

end CppPerf.Numbers
