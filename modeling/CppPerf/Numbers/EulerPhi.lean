import CppPerf.Numbers.Sieve
import Mathlib.Data.Int.Order.Basic
import Mathlib.Data.Nat.Prime.Int
import Mathlib.Data.Nat.Totient
import Mathlib.Tactic.NormNum.Prime

/-! Prime factors and the totient of `mathlib_primes.h`. Products of two `int`s wrap around. -/
namespace CppPerf.Numbers

/-- The loop that takes a factor out. An `int` is not divided by a prime in 32 rounds. -/
def divideOut (p : Int) : (rounds : Nat) → (N : Int) → Option Int
  | 0, _ => none
  | rounds + 1, N =>
      let N := N.tdiv p
      if N.tmod p = 0 then divideOut p rounds N else some N

/-- The loop over the primes, and what is left at its end. -/
def factorLoop : (primes : List Int) → (N : Int) → (factors : List Int) → Option (List Int)
  | [], N, factors => some (if N > 1 then factors ++ [N] else factors)
  | p :: primes, N, factors =>
      if (p * p).bmod (2 ^ 32) > N then some (if N > 1 then factors ++ [N] else factors)
      else if N.tmod p = 0 then
        (divideOut p 32 N).bind fun N => factorLoop primes N (factors ++ [p])
      else factorLoop primes N factors

def get_prime_factors (N : Int) (primes : List Int) : Option (List Int) := factorLoop primes N []

/-- The turn of the loop for one factor. -/
def phiStep (phi f : Int) : Int := ((phi * (f - 1)).bmod (2 ^ 32)).tdiv f

def euler_phi (n : Int) (primes : List Int) : Option Int :=
  (get_prime_factors n primes).map fun factors => factors.foldl phiStep n

variable {p q L N n bound : Nat} {ps : List Nat}

/-- The prime is taken out as often as it divides the number. -/
theorem divideOut_spec {rounds : Nat} (hp : p.Prime) (hPos : 0 < N) (hDvd : p ∣ N)
    (hRounds : N < 2 ^ rounds) :
    ∃ M k : Nat, divideOut p rounds N = some (M : Int) ∧ N = p ^ (k + 1) * M ∧ ¬p ∣ M := by
  induction rounds generalizing N with
  | zero => omega
  | succ rounds ih =>
      obtain ⟨c, rfl⟩ := hDvd
      have hDiv : ((p * c : Nat) : Int).tdiv p = (c : Int) := by
        rw [Nat.cast_mul]
        exact Int.mul_tdiv_cancel_left _ (by exact_mod_cast hp.ne_zero)
      have hMod : (c : Int).tmod p = 0 ↔ p ∣ c := by
        rw [← Int.dvd_iff_tmod_eq_zero]
        exact Int.natCast_dvd_natCast
      simp only [divideOut, hDiv, hMod]
      split_ifs with hAgain
      · have hTwo := hp.two_le
        have hLess : c < 2 ^ rounds := by
          rw [Nat.pow_succ] at hRounds
          have hHalf := Nat.mul_le_mul_right c hTwo
          omega
        obtain ⟨M, k, hRun, hEq, hNot⟩ := ih (Nat.pos_of_mul_pos_left hPos) hAgain hLess
        exact ⟨M, k + 1, hRun, by rw [hEq, ← Nat.mul_assoc, ← Nat.pow_succ'], hNot⟩
      · exact ⟨c, 0, rfl, by rw [Nat.zero_add, Nat.pow_one], hAgain⟩

/-- Without a small prime factor there is at most one. -/
theorem eq_one_or_prime (hPos : 0 < N) (hFactors : ∀ q, q.Prime → q ∣ N → bound ≤ q)
    (hLt : N < bound * bound) : N = 1 ∨ N.Prime := by
  by_contra hNot
  rw [not_or] at hNot
  have hSquare := Nat.minFac_sq_le_self hPos hNot.2
  have hLe := hFactors _ (Nat.minFac_prime hNot.1) (Nat.minFac_dvd N)
  have hMul := Nat.mul_le_mul hLe hLe
  rw [pow_two] at hSquare
  omega

/-- The distinct prime factors in increasing order. -/
structure PrimeFactors (N : Nat) (factors : List Nat) : Prop where
  sorted : factors.Pairwise (· < ·)
  mem_iff : ∀ q, q ∈ factors ↔ q.Prime ∧ q ∣ N

/-- The number that is left is a factor, if it is not 1. -/
theorem primeFactors_rest (hPos : 0 < N) (h : N = 1 ∨ N.Prime) :
    ∃ new : List Nat, (∀ factors : List Int, (if (N : Int) > 1 then factors ++ [(N : Int)]
        else factors) = factors ++ new.map Nat.cast) ∧ PrimeFactors N new := by
  rcases h with rfl | hPrime
  · refine ⟨[], fun factors => by simp, List.Pairwise.nil, fun q => ?_⟩
    refine iff_of_false List.not_mem_nil ?_
    rintro ⟨hq, hDvd⟩
    exact hq.one_lt.ne' (Nat.dvd_one.mp hDvd)
  · refine ⟨[N], fun factors => ?_, List.pairwise_singleton _ _, fun q => ?_⟩
    · rw [if_pos (by exact_mod_cast hPrime.one_lt)]
      rfl
    · rw [List.mem_singleton]
      constructor
      · rintro rfl
        exact ⟨hPrime, dvd_rfl⟩
      · rintro ⟨hq, hDvd⟩
        exact (Nat.prime_dvd_prime_iff_eq hq hPrime).mp hDvd

/-- The least prime factor comes first. -/
theorem PrimeFactors.cons {M k : Nat} {new : List Nat} (h : PrimeFactors M new) (hp : p.Prime)
    (hEq : N = p ^ (k + 1) * M) (hNot : ¬p ∣ M) (hLeast : ∀ q, q.Prime → q ∣ N → p ≤ q) :
    PrimeFactors N (p :: new) := by
  have hM : M ∣ N := Dvd.intro_left _ hEq.symm
  have hDvd : p ∣ N := by
    rw [hEq, Nat.pow_succ', Nat.mul_assoc]
    exact dvd_mul_right ..
  constructor
  · refine List.pairwise_cons.mpr ⟨fun q hq => ?_, h.sorted⟩
    obtain ⟨hPrime, hqM⟩ := (h.mem_iff q).mp hq
    refine lt_of_le_of_ne (hLeast q hPrime (hqM.trans hM)) ?_
    rintro rfl
    exact hNot hqM
  · intro q
    rw [List.mem_cons, h.mem_iff]
    constructor
    · rintro (rfl | ⟨hPrime, hqM⟩)
      · exact ⟨hp, hDvd⟩
      · exact ⟨hPrime, hqM.trans hM⟩
    · rintro ⟨hPrime, hqN⟩
      rw [hEq, hPrime.dvd_mul] at hqN
      rcases hqN with hPow | hqM
      · exact Or.inl ((Nat.prime_dvd_prime_iff_eq hPrime hp).mp (hPrime.dvd_of_dvd_pow hPow))
      · exact Or.inr ⟨hPrime, hqM⟩

/-- The square wraps around only to something smaller. -/
theorem bmod_le (x : Nat) : (x : Int).bmod (2 ^ 32) ≤ x := by
  rw [Int.bmod_def]
  split_ifs <;> omega

/-- The primes that are left are those below the bound that can still divide. -/
structure Left (L : Nat) (ps : List Nat) (N : Nat) : Prop where
  sorted : ps.Pairwise (· < ·)
  prime : ∀ p ∈ ps, p.Prime ∧ p < L
  covers : ∀ q, q.Prime → q ∣ N → q ∈ ps ∨ L ≤ q

theorem Left.ge (h : Left L (p :: ps) N) (hq : q.Prime) (hDvd : q ∣ N) : p ≤ q := by
  rcases h.covers q hq hDvd with hMem | hLe
  · rcases List.mem_cons.mp hMem with rfl | hMem
    · exact le_rfl
    · exact ((List.pairwise_cons.mp h.sorted).1 q hMem).le
  · exact (h.prime p (by simp)).2.le.trans hLe

/-- A prime that does not divide is left out. -/
theorem Left.tail {M : Nat} (h : Left L (p :: ps) N) (hDvd : M ∣ N) (hNot : ¬p ∣ M) :
    Left L ps M := by
  refine ⟨h.sorted.of_cons, fun q hq => h.prime q (by simp [hq]), fun q hq hM => ?_⟩
  rcases h.covers q hq (hM.trans hDvd) with hMem | hLe
  · rcases List.mem_cons.mp hMem with rfl | hMem
    · exact absurd hM hNot
    · exact Or.inl hMem
  · exact Or.inr hLe

theorem factorLoop_spec (hLeft : Left L ps N) (hPos : 0 < N) (hSquare : N < L * L)
    (hInt : N < 2 ^ 31) (factors : List Int) :
    ∃ new, factorLoop (ps.map Nat.cast) N factors = some (factors ++ new.map Nat.cast) ∧
      PrimeFactors N new := by
  induction ps generalizing N factors with
  | nil =>
      have hFactors : ∀ q, q.Prime → q ∣ N → L ≤ q := fun q hq hDvd =>
        (hLeft.covers q hq hDvd).resolve_left List.not_mem_nil
      obtain ⟨new, hRest, hNew⟩ := primeFactors_rest hPos (eq_one_or_prime hPos hFactors hSquare)
      exact ⟨new, congrArg some (hRest factors), hNew⟩
  | cons p ps ih =>
      have hp := (hLeft.prime p (by simp)).1
      have hMod : (N : Int).tmod p = 0 ↔ p ∣ N := by
        rw [← Int.dvd_iff_tmod_eq_zero]
        exact Int.natCast_dvd_natCast
      simp only [List.map_cons, factorLoop, hMod]
      by_cases hBreak : ((p : Int) * p).bmod (2 ^ 32) > N
      · rw [if_pos hBreak]
        have hLt : N < p * p := by
          have hLe := bmod_le (p * p)
          rw [Nat.cast_mul] at hLe
          exact_mod_cast hBreak.trans_le hLe
        obtain ⟨new, hRest, hNew⟩ :=
          primeFactors_rest hPos (eq_one_or_prime hPos (fun q => hLeft.ge) hLt)
        exact ⟨new, congrArg some (hRest factors), hNew⟩
      rw [if_neg hBreak]
      by_cases hDvd : p ∣ N
      · rw [if_pos hDvd]
        have hRounds : N < 2 ^ 32 := by omega
        obtain ⟨M, k, hRun, hEq, hNot⟩ := divideOut_spec hp hPos hDvd hRounds
        have hM : M ∣ N := Dvd.intro_left _ hEq.symm
        have hMPos := Nat.pos_of_dvd_of_pos hM hPos
        have hMLe := Nat.le_of_dvd hPos hM
        have hRest := hLeft.tail hM hNot
        obtain ⟨new, hLoop, hNew⟩ :=
          ih hRest hMPos (by omega) (by omega) (factors ++ [(p : Int)])
        refine ⟨p :: new, ?_, hNew.cons hp hEq hNot fun q => hLeft.ge⟩
        rw [hRun, Option.bind_some, hLoop, List.append_assoc]
        rfl
      · rw [if_neg hDvd]
        exact ih (hLeft.tail dvd_rfl hDvd) hPos hSquare hInt factors

/-- With the primes up to the square root all prime factors are found. -/
theorem get_prime_factors_spec (hPos : 0 < n) (hInt : n < 2 ^ 31) (hBound : n.sqrt + 1 < N) :
    ∃ new, get_prime_factors n (make_primes N) = some (new.map Nat.cast) ∧ PrimeFactors n new := by
  have hSquare : n < N * N :=
    (Nat.lt_succ_sqrt n).trans_le (Nat.mul_le_mul (by omega) (by omega))
  have hLeft : Left N (primesBelow N) n := by
    refine ⟨primesBelow_sorted N, fun p hp => (mem_primesBelow.mp hp).symm, fun q hq _ => ?_⟩
    rcases Nat.lt_or_ge q N with hLt | hGe
    · exact Or.inl (mem_primesBelow.mpr ⟨hLt, hq⟩)
    · exact Or.inr hGe
  rw [get_prime_factors, make_primes_eq (by omega)]
  exact factorLoop_spec hLeft hPos hSquare hInt []

end CppPerf.Numbers

/-! When `euler_phi` is Euler's totient: a product in the loop must fit in an `int`. -/
namespace CppPerf.Numbers

variable {n N p : Nat} {a b factors : List Nat}

/-- The exact value behind the factors of a list. -/
def partialPhi (n : Nat) (a : List Nat) : Nat := n / a.prod * (a.map (· - 1)).prod

/-- The division has no remainder. -/
theorem partialPhi_step (hPos : 0 < n) (hDvd : (a ++ [p]).prod ∣ n) :
    partialPhi n a * (p - 1) = p * partialPhi n (a ++ [p]) := by
  obtain ⟨m, rfl⟩ := hDvd
  rw [List.prod_append, List.prod_singleton] at hPos ⊢
  have hAll : 0 < a.prod * p := Nat.pos_of_mul_pos_right hPos
  have ha : 0 < a.prod := Nat.pos_of_mul_pos_right hAll
  have hFirst : a.prod * p * m / a.prod = p * m := by
    rw [Nat.mul_assoc, Nat.mul_div_cancel_left _ ha]
  have hSecond : a.prod * p * m / (a ++ [p]).prod = m := by
    rw [List.prod_append, List.prod_singleton, Nat.mul_div_cancel_left _ hAll]
  rw [partialPhi, partialPhi, hFirst, hSecond, List.map_append, List.prod_append,
    List.map_singleton, List.prod_singleton]
  ring

/-- The products of the loop grow. -/
theorem product_le (hPos : 0 < n) (hSorted : (p :: b).Pairwise (· < ·))
    (hDvd : (a ++ p :: b).prod ∣ n) :
    ∃ q ∈ p :: b, p * partialPhi n (a ++ [p]) ≤ q * partialPhi n (a ++ p :: b) := by
  induction b generalizing a p with
  | nil => exact ⟨p, by simp, le_rfl⟩
  | cons p' b ih =>
      have hSplit : a ++ p :: p' :: b = (a ++ [p]) ++ p' :: b := by simp
      rw [hSplit] at hDvd ⊢
      obtain ⟨q, hq, hLe⟩ := ih hSorted.of_cons hDvd
      have hFirst : ((a ++ [p]) ++ [p']).prod ∣ n := by
        refine Dvd.dvd.trans ⟨b.prod, ?_⟩ hDvd
        simp [mul_assoc]
      have hLt : p < p' := (List.pairwise_cons.mp hSorted).1 p' (by simp)
      refine ⟨q, List.mem_cons_of_mem _ hq, ?_⟩
      calc p * partialPhi n (a ++ [p])
          ≤ (p' - 1) * partialPhi n (a ++ [p]) := Nat.mul_le_mul_right _ (by omega)
        _ = p' * partialPhi n ((a ++ [p]) ++ [p']) := by
            rw [Nat.mul_comm, partialPhi_step hPos hFirst]
        _ ≤ q * partialPhi n ((a ++ [p]) ++ p' :: b) := hLe

theorem phiStep_eq {phi v : Nat} (hp : 0 < p) (h : phi * (p - 1) = p * v) (hFits : p * v < 2 ^ 31) :
    phiStep phi p = v := by
  have hProduct : (phi : Int) * ((p : Int) - 1) = ((p * v : Nat) : Int) := by
    rw [← h, Nat.cast_mul, Nat.cast_sub hp, Nat.cast_one]
  rw [phiStep, hProduct, Int.bmod_eq_of_le (by omega) (by omega), Nat.cast_mul]
  exact Int.mul_tdiv_cancel_left _ (by omega)

/-- While the products fit, every step is exact. -/
theorem foldl_phiStep (hPos : 0 < n) (hSorted : b.Pairwise (· < ·)) (hDvd : (a ++ b).prod ∣ n)
    (hFits : ∀ q ∈ b, q * partialPhi n (a ++ b) < 2 ^ 31) :
    (b.map Nat.cast).foldl phiStep (partialPhi n a : Int) = partialPhi n (a ++ b) := by
  induction b generalizing a with
  | nil => simp
  | cons p b ih =>
      obtain ⟨q, hq, hLe⟩ := product_le hPos hSorted hDvd
      have hSplit : a ++ p :: b = (a ++ [p]) ++ b := by simp
      rw [hSplit] at hDvd hFits hLe ⊢
      have hFirst : (a ++ [p]).prod ∣ n := by
        rw [List.prod_append] at hDvd
        exact dvd_of_mul_right_dvd hDvd
      have hp : 0 < p := by
        apply Nat.pos_of_dvd_of_pos _ hPos
        rw [List.prod_append, List.prod_singleton] at hFirst
        exact dvd_of_mul_left_dvd hFirst
      rw [List.map_cons, List.foldl_cons,
        phiStep_eq hp (partialPhi_step hPos hFirst) (hLe.trans_lt (hFits q hq))]
      exact ih hSorted.of_cons hDvd fun q hq => hFits q (List.mem_cons_of_mem _ hq)

/-- A step never gives what would not have fit. -/
theorem product_of_phiStep {phi : Int} {v : Nat} (hp : 0 < p) (hv : 0 < v)
    (h : phiStep phi p = v) : p * v < 2 ^ 31 := by
  rw [phiStep] at h
  have hBound := @Int.bmod_lt (phi * ((p : Int) - 1)) (2 ^ 32) (by decide)
  generalize (phi * ((p : Int) - 1)).bmod (2 ^ 32) = w at h hBound
  have hNonneg : 0 ≤ w := by
    by_contra hNeg
    have hQuotient : 0 ≤ (-w).tdiv p := Int.tdiv_nonneg (by omega) (by omega)
    rw [Int.neg_tdiv, h] at hQuotient
    omega
  rw [Int.tdiv_eq_ediv_of_nonneg hNonneg] at h
  have hLe := Int.ediv_mul_le w (Int.natCast_ne_zero.mpr hp.ne')
  rw [h] at hLe
  have hCast : ((p * v : Nat) : Int) ≤ w := by
    rw [Nat.mul_comm]
    exact_mod_cast hLe
  omega

namespace PrimeFactors

theorem nodup (h : PrimeFactors n factors) : factors.Nodup := h.sorted.imp fun hLt => hLt.ne

theorem toFinset_eq (h : PrimeFactors n factors) (hPos : 0 < n) :
    factors.toFinset = n.primeFactors := by
  ext q
  rw [List.mem_toFinset, h.mem_iff, Nat.mem_primeFactors_of_ne_zero hPos.ne']

theorem map_prod_eq (h : PrimeFactors n factors) (hPos : 0 < n) (f : Nat → Nat) :
    (factors.map f).prod = ∏ q ∈ n.primeFactors, f q := by
  rw [← h.toFinset_eq hPos, List.prod_toFinset f h.nodup]

theorem prod_eq (h : PrimeFactors n factors) (hPos : 0 < n) :
    factors.prod = ∏ q ∈ n.primeFactors, q := by
  rw [← h.map_prod_eq hPos fun q => q, List.map_id']

/-- The exact value is Euler's totient. -/
theorem partialPhi_eq (h : PrimeFactors n factors) (hPos : 0 < n) :
    partialPhi n factors = n.totient := by
  rw [Nat.totient_eq_div_primeFactors_mul, partialPhi, h.map_prod_eq hPos, h.prod_eq hPos]

/-- The loop computes the totient exactly if the product for the last factor fits. -/
theorem foldl_eq_iff (h : PrimeFactors n factors) (hPos : 0 < n) :
    (factors.map Nat.cast).foldl phiStep (n : Int) = n.totient ↔
      ∀ p ∈ factors, p * n.totient < 2 ^ 31 := by
  constructor
  · intro hFold
    rcases List.eq_nil_or_concat' factors with rfl | ⟨a, last, rfl⟩
    · simp
    · rw [List.map_append, List.foldl_append, List.map_singleton, List.foldl_cons,
        List.foldl_nil] at hFold
      have hPrime := ((h.mem_iff last).mp (by simp)).1
      have hFits := product_of_phiStep hPrime.pos (Nat.totient_pos.mpr hPos) hFold
      intro p hp
      have hLe : p ≤ last := by
        rcases List.mem_append.mp hp with hp | hp
        · exact ((List.pairwise_append.mp h.sorted).2.2 p hp last (by simp)).le
        · exact (List.mem_singleton.mp hp).le
      exact (Nat.mul_le_mul_right _ hLe).trans_lt hFits
  · intro hFits
    rw [← h.partialPhi_eq hPos] at hFits ⊢
    have hStart : partialPhi n [] = n := by simp [partialPhi]
    have hDvd : factors.prod ∣ n := h.prod_eq hPos ▸ Nat.prod_primeFactors_dvd n
    have hFold := @foldl_phiStep n [] factors hPos h.sorted hDvd hFits
    rwa [hStart] at hFold

theorem eq_singleton (h : PrimeFactors p factors) (hp : p.Prime) : factors = [p] := by
  rw [← List.perm_singleton, List.perm_ext_iff_of_nodup h.nodup (List.nodup_singleton p)]
  intro q
  rw [h.mem_iff, List.mem_singleton]
  constructor
  · rintro ⟨hq, hDvd⟩
    exact (Nat.prime_dvd_prime_iff_eq hq hp).mp hDvd
  · rintro rfl
    exact ⟨hp, dvd_rfl⟩

end PrimeFactors

/-- The product before the division by the factor. -/
theorem product_eq (hMem : p ∈ n.primeFactors) :
    (∏ q ∈ n.primeFactors, (q - 1)) * (n / ∏ q ∈ n.primeFactors.erase p, q) = p * n.totient := by
  have hProduct : p * ∏ q ∈ n.primeFactors.erase p, q = ∏ q ∈ n.primeFactors, q :=
    Finset.mul_prod_erase n.primeFactors id hMem
  obtain ⟨m, hm⟩ := Nat.prod_primeFactors_dvd n
  have hPos : 0 < n := Nat.pos_of_ne_zero (Nat.mem_primeFactors.mp hMem).2.2
  rw [hm] at hPos
  have hAll : 0 < ∏ q ∈ n.primeFactors, q := Nat.pos_of_mul_pos_right hPos
  have hErased : 0 < ∏ q ∈ n.primeFactors.erase p, q := by
    rw [← hProduct] at hAll
    exact Nat.pos_of_mul_pos_left hAll
  have hWith : n / ∏ q ∈ n.primeFactors, q = m := Nat.div_eq_of_eq_mul_right hAll hm
  have hWithout : n / ∏ q ∈ n.primeFactors.erase p, q = p * m := by
    apply Nat.div_eq_of_eq_mul_right hErased
    calc n = (∏ q ∈ n.primeFactors, q) * m := hm
      _ = (∏ q ∈ n.primeFactors.erase p, q) * (p * m) := by
          rw [← hProduct]
          ring
  rw [Nat.totient_eq_div_primeFactors_mul, hWith, hWithout]
  ring

/-- The prime factors are right, and the totient exactly if for every prime factor the product
of the other factors of the formula fits in an `int`. -/
theorem euler_phi_eq_totient_iff (n N : Nat) (hPos : 1 ≤ n) (hInt : n < 2 ^ 31)
    (hBound : n.sqrt + 1 < N) :
    (∃ factors, get_prime_factors n (make_primes N) = some (factors.map Nat.cast) ∧
      PrimeFactors n factors) ∧
    (euler_phi n (make_primes N) = some (n.totient : Int) ↔
      ∀ p ∈ n.primeFactors,
        (∏ q ∈ n.primeFactors, (q - 1)) * (n / ∏ q ∈ n.primeFactors.erase p, q) < 2 ^ 31) := by
  obtain ⟨factors, hCall, hFactors⟩ := get_prime_factors_spec hPos hInt hBound
  refine ⟨⟨factors, hCall, hFactors⟩, ?_⟩
  rw [euler_phi, hCall, Option.map_some, Option.some.injEq, hFactors.foldl_eq_iff hPos,
    ← hFactors.toFinset_eq hPos]
  simp only [List.mem_toFinset]
  refine forall₂_congr fun p hp => ?_
  rw [hFactors.toFinset_eq hPos, product_eq (hFactors.toFinset_eq hPos ▸ List.mem_toFinset.mpr hp)]

theorem euler_phi_eq_totient_iff_ten : euler_phi 10 (make_primes 10000) = some 4 :=
  (euler_phi_eq_totient_iff 10 10000 (by decide) (by decide) (by decide +kernel)).2.mpr
    (by decide +kernel)

/-- The product of 65537 and 65536 wraps around. -/
theorem not_euler_phi_eq_totient :
    ¬∀ n N : Nat, 1 ≤ n → n < 2 ^ 31 → n.sqrt + 1 < N → N < 2 ^ 31 →
      euler_phi n (make_primes N) = some (n.totient : Int) := by
  intro hClaim
  have hPrime : Nat.Prime 65537 := by norm_num
  have hSqrt : Nat.sqrt 65537 < 257 := Nat.sqrt_lt'.mpr (by decide)
  obtain ⟨factors, hCall, hFactors⟩ :=
    @get_prime_factors_spec 258 65537 (by decide) (by decide) (by omega)
  rw [hFactors.eq_singleton hPrime] at hCall
  have hTotient := hClaim 65537 258 (by decide) (by decide) (by omega) (by decide)
  rw [euler_phi, hCall, Nat.totient_prime hPrime] at hTotient
  exact absurd hTotient (by decide)

end CppPerf.Numbers
