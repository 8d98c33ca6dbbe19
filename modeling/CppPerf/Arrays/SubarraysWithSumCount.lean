import CppPerf.Arrays.SubarraysWithSum

/-! The subarrays with ones are counted by the blocks of equal partial sums. -/
namespace CppPerf.Arrays

open Text Subarrays SortedRange

variable {A l : List Int} {S v w : Int} {i k : Nat}

section Blocks

/-- How many entries are not above a value. -/
def upTo (l : List Int) (v : Int) : Nat := l.countP (· ≤ v)

theorem countP_lt_succ (l : List Int) (v : Int) : l.countP (· < v + 1) = upTo l v := by
  apply List.countP_congr
  intro x _
  simp only [decide_eq_true_eq]
  omega

theorem upTo_eq_add (l : List Int) (v : Int) : upTo l v = l.countP (· < v) + l.count v := by
  induction l with
  | nil => rfl
  | cons x l ih =>
      simp only [upTo, List.countP_cons, List.count_cons, decide_eq_true_eq, beq_iff_eq] at ih ⊢
      split_ifs <;> omega

theorem upTo_mono (h : v ≤ w) : upTo l v ≤ upTo l w := by
  apply List.countP_mono_left
  intro x _ hx
  simp only [decide_eq_true_eq] at hx ⊢
  omega

variable (hSorted : l.Pairwise (· ≤ ·))
include hSorted

theorem splits_upTo (v : Int) : SplitsAfter l v (upTo l v) 0 := by
  have hStart : SplitsAfter l v 0 l.length := by
    refine ⟨by omega, fun i x hi => absurd hi (Nat.not_lt_zero i), fun i x hi hx => ?_⟩
    rw [List.getElem?_eq_none (by omega)] at hx
    cases hx
  have hSplits := splitsAfter_upperBound hSorted hStart
  rwa [upperBound_eq_countP hSorted hStart] at hSplits

/-- The range of a value, searched from a position with smaller entries in front of it. -/
theorem equal_range_eq (hFirst : k ≤ l.length)
    (hBefore : ∀ i x, i < k → l[i]? = some x → x < v) :
    equal_range l k l.length v = (l.countP (· < v), upTo l v) := by
  have hEnd : ∀ i x, k + (l.length - k) ≤ i → l[i]? ≠ some x := by
    intro i x hi
    rw [List.getElem?_eq_none (by omega)]
    exact nofun
  have hLower : Splits l v k (l.length - k) :=
    ⟨by omega, hBefore, fun i x hi hx => absurd hx (hEnd i x hi)⟩
  have hUpper : SplitsAfter l v k (l.length - k) :=
    ⟨by omega, fun i x hi hx => (hBefore i x hi hx).le, fun i x hi hx => absurd hx (hEnd i x hi)⟩
  rw [equal_range, lowerBound_eq_countP hSorted hLower, upperBound_eq_countP hSorted hUpper, upTo]

end Blocks

section PartialSums

theorem length_prefixSums (A : List Int) : (prefixSums A).length = A.length := by
  rw [prefixSums, List.length_map, List.length_range]

theorem getElem?_prefixSums (hk : k < A.length) :
    (prefixSums A)[k]? = some (prefixSum A (k + 1)) := by
  rw [prefixSums, List.getElem?_map, List.getElem?_range hk]
  rfl

variable (hBits : ∀ a ∈ A, a = 0 ∨ a = 1)
include hBits

theorem nonneg_of_bits : ∀ a ∈ A, 0 ≤ a := fun a ha => by
  rcases hBits a ha with rfl | rfl <;> decide

theorem prefixSum_succ_le (i : Nat) : prefixSum A (i + 1) ≤ prefixSum A i + 1 := by
  rw [prefixSum, prefixSum, List.take_add_one, List.sum_append]
  cases hAt : A[i]? with
  | none => simp
  | some a =>
      rcases hBits a (List.mem_of_getElem? hAt) with rfl | rfl <;> simp

theorem prefixSum_le_sum (i : Nat) : prefixSum A i ≤ A.sum := by
  have hNonneg := nonneg_of_bits hBits
  rcases Nat.le_total i A.length with hLe | hLe
  · rw [← prefixSum_length]
    exact prefixSum_mono hNonneg hLe
  · rw [prefixSum, List.take_of_length_le hLe]

theorem partial_sum_eq (hOnes : A.sum < 2 ^ 31) : partial_sum A = prefixSums A := by
  have hNonneg := nonneg_of_bits hBits
  have hHead : ∀ x ∈ A.head?, int x = x := by
    intro x hx
    rcases hBits x (List.mem_of_head? hx) with rfl | rfl <;> decide
  apply List.ext_getElem?
  intro k
  rcases Nat.lt_or_ge k A.length with hk | hk
  · have hSum : (A.take (k + 1)).sum = prefixSum A (k + 1) := rfl
    have hLe := prefixSum_le_sum hBits (k + 1)
    have hGe : 0 ≤ prefixSum A (k + 1) := prefixSum_mono hNonneg (Nat.zero_le _)
    have hInt : int (prefixSum A (k + 1)) = prefixSum A (k + 1) :=
      Int.bmod_eq_of_le (by omega) (by omega)
    rw [getElem?_partial_sum hHead hk, hSum, hInt, getElem?_prefixSums hk]
  · rw [List.getElem?_eq_none (by simpa using hk),
      List.getElem?_eq_none (by rwa [length_prefixSums])]

theorem sorted_prefixSums : (prefixSums A).Pairwise (· ≤ ·) := by
  rw [prefixSums, List.pairwise_map]
  exact List.pairwise_lt_range.imp fun hLt =>
    prefixSum_mono (nonneg_of_bits hBits) (Nat.succ_le_succ hLt.le)

/-- Behind the entries that are not above a value stands the next value. -/
theorem getElem?_upTo (hv : 0 ≤ v) (hLt : upTo (prefixSums A) v < A.length) :
    (prefixSums A)[upTo (prefixSums A) v]? = some (v + 1) := by
  have hSplits := splits_upTo (sorted_prefixSums hBits) v
  have hAt := getElem?_prefixSums hLt
  have hAbove := hSplits.behind _ _ (Nat.le_refl _) hAt
  have hStep := prefixSum_succ_le hBits (upTo (prefixSums A) v)
  rw [hAt, Option.some.injEq]
  cases hUp : upTo (prefixSums A) v with
  | zero =>
      rw [hUp] at hStep hAbove
      rw [prefixSum_zero] at hStep
      omega
  | succ k =>
      rw [hUp] at hStep hAbove hLt
      have hBefore := hSplits.before k _ (by omega) (getElem?_prefixSums (by omega))
      omega

/-- The range of the next value begins where that of a value ends. -/
theorem equal_range_upTo (v : Int) :
    equal_range (prefixSums A) (upTo (prefixSums A) v) A.length (v + 1) =
      (upTo (prefixSums A) v, upTo (prefixSums A) (v + 1)) := by
  have hSplits := splits_upTo (sorted_prefixSums hBits) v
  have hBound := hSplits.bound
  rw [← length_prefixSums A, equal_range_eq (sorted_prefixSums hBits) (by omega),
    countP_lt_succ]
  intro i x hi hx
  have hLe := hSplits.before i x hi hx
  omega

end PartialSums

section Ways

variable {f : Int → Nat}

/-- The ways that end in an entry that is not above a value. -/
def waysUpTo (f : Int → Nat) (l : List Int) (w : Int) : Nat :=
  ((l.filter (· ≤ w)).map f).sum

theorem waysUpTo_succ (f : Int → Nat) (l : List Int) (w : Int) :
    waysUpTo f l (w + 1) = waysUpTo f l w + l.count (w + 1) * f (w + 1) := by
  induction l with
  | nil => simp [waysUpTo]
  | cons x l ih =>
      simp only [waysUpTo, List.filter_cons, List.count_cons, decide_eq_true_eq, beq_iff_eq] at ih ⊢
      rcases lt_trichotomy x (w + 1) with hLt | rfl | hGt
      · rw [if_pos hLt.le, if_pos (by omega), if_neg hLt.ne, List.map_cons, List.map_cons,
          List.sum_cons, List.sum_cons, ih, Nat.add_zero, Nat.add_assoc]
      · rw [if_pos le_rfl, if_neg (by omega), if_pos rfl, List.map_cons, List.sum_cons, ih,
          Nat.add_mul]
        omega
      · rw [if_neg (by omega), if_neg (by omega), if_neg hGt.ne', ih, Nat.add_zero]

theorem waysUpTo_le (f : Int → Nat) (l : List Int) (w : Int) :
    waysUpTo f l w ≤ (l.map f).sum := by
  induction l with
  | nil => exact Nat.le_refl _
  | cons x l ih =>
      rw [waysUpTo, List.filter_cons, List.map_cons, List.sum_cons]
      split_ifs
      · exact Nat.add_le_add_left ih _
      · exact Nat.le_add_left_of_le ih

theorem waysUpTo_eq (hAll : upTo l w = l.length) : waysUpTo f l w = (l.map f).sum := by
  rw [upTo, List.countP_eq_length] at hAll
  rw [waysUpTo, List.filter_eq_self.mpr hAll]

end Ways

section Loop

/-- How many subarrays with the sum end at a position with a partial sum. -/
def startsOf (A : List Int) (S : Int) (x : Int) : Nat := (0 :: prefixSums A).count (x - S)

theorem upTo_succ_sub (l : List Int) (v : Int) :
    (upTo l (v + 1) : Int) - upTo l v = (l.count (v + 1) : Nat) := by
  have hAdd := upTo_eq_add l (v + 1)
  rw [countP_lt_succ] at hAdd
  omega

theorem int_natCast {n : Nat} (h : n < 2 ^ 31) : int n = n :=
  Int.bmod_eq_of_le (by omega) (by omega)

/-- If a product of two numbers is an `int` and not zero, so are they. -/
theorem int_mul {m n : Nat} (hm : 0 < m) (hn : 0 < n) (hLt : m * n < 2 ^ 31) :
    int (int m * int n) = (m * n : Nat) := by
  have hLeft : m ≤ m * n := Nat.le_mul_of_pos_right m hn
  have hRight : n ≤ m * n := Nat.le_mul_of_pos_left n hm
  rw [int_natCast (by omega), int_natCast (by omega), ← Nat.cast_mul, int_natCast hLt]

variable (hBits : ∀ a ∈ A, a = 0 ∨ a = 1) (hS : 0 < S) (hOnes : A.sum < 2 ^ 31)
  (hNumber : number A S < 2 ^ 31)
include hBits hS hNumber

theorem waysUpTo_lt (w : Int) : waysUpTo (startsOf A S) (prefixSums A) w < 2 ^ 31 := by
  have hLe := waysUpTo_le (startsOf A S) (prefixSums A) w
  have hAll := number_of_pos (nonneg_of_bits hBits) hS
  have hSame : startsOf A S = fun x => (0 :: prefixSums A).count (x - S) := rfl
  rw [← hSame] at hAll
  omega

omit hBits hS hNumber in
/-- What a block adds to the ways is the product of two numbers of equal partial sums. -/
theorem waysUpTo_block (hv : 0 ≤ v) :
    waysUpTo (startsOf A S) (prefixSums A) (v + S + 1) =
      waysUpTo (startsOf A S) (prefixSums A) (v + S) +
        (prefixSums A).count (v + 1) * (prefixSums A).count (v + S + 1) := by
  have hShift : v + S + 1 - S = v + 1 := by omega
  have hStarts : startsOf A S (v + S + 1) = (prefixSums A).count (v + 1) := by
    rw [startsOf, hShift, List.count_cons_of_ne (by omega)]
  rw [waysUpTo_succ, hStarts, Nat.mul_comm]

include hOnes

theorem block_loop_spec {rounds : Nat} (hv : 0 ≤ v)
    (hRounds : A.length - upTo (prefixSums A) (v + S) < rounds) (a b : Nat) :
    block_loop (prefixSums A) S rounds (a, upTo (prefixSums A) v)
      (b, upTo (prefixSums A) (v + S)) (waysUpTo (startsOf A S) (prefixSums A) (v + S)) =
        some (number A S : Int) := by
  induction rounds generalizing v a b with
  | zero => omega
  | succ rounds ih =>
      rw [block_loop, length_prefixSums]
      split_ifs with hEnd
      · have hBound := (splits_upTo (sorted_prefixSums hBits) (v + S)).bound
        rw [length_prefixSums] at hBound
        have hLess : upTo (prefixSums A) (v + S) < A.length := by omega
        have hMono : upTo (prefixSums A) v ≤ upTo (prefixSums A) (v + S) := upTo_mono (by omega)
        have hValue := getElem?_upTo hBits hv (by omega)
        have hNext := getElem?_upTo hBits (v := v + S) (by omega) hLess
        have hMem := List.count_pos_iff.mpr (List.mem_of_getElem? hValue)
        have hMem' := List.count_pos_iff.mpr (List.mem_of_getElem? hNext)
        have hTarget : int (v + 1 + S) = v + S + 1 := by
          have hSum := prefixSum_le_sum hBits (upTo (prefixSums A) (v + S) + 1)
          rw [getElem?_prefixSums hLess, Option.some.injEq] at hNext
          rw [int, Int.bmod_eq_of_le (by omega) (by omega)]
          omega
        have hWays := waysUpTo_block (A := A) (S := S) hv
        have hLt := waysUpTo_lt hBits hS hNumber (v + S + 1)
        have hProduct : (prefixSums A).count (v + 1) * (prefixSums A).count (v + S + 1) < 2 ^ 31 :=
          Nat.lt_of_le_of_lt (hWays ▸ Nat.le_add_left _ _) hLt
        have hTotal : int ((waysUpTo (startsOf A S) (prefixSums A) (v + S) : Int) +
            ((prefixSums A).count (v + 1) * (prefixSums A).count (v + S + 1) : Nat)) =
              waysUpTo (startsOf A S) (prefixSums A) (v + S + 1) := by
          rw [hWays] at hLt ⊢
          rw [← Nat.cast_add, int_natCast hLt]
        have hStep := ih (v := v + 1) (by omega) (by
          have hAdd := upTo_succ_sub (prefixSums A) (v + S)
          have hSame : v + 1 + S = v + S + 1 := by omega
          rw [hSame]
          omega) (upTo (prefixSums A) v) (upTo (prefixSums A) (v + S))
        have hSame : v + 1 + S = v + S + 1 := by omega
        rw [hSame] at hStep
        simp only [hValue, hTarget, equal_range_upTo hBits, upTo_succ_sub,
          int_mul hMem hMem' hProduct, hTotal, Option.bind_eq_bind, Option.bind_some]
        exact hStep
      · have hAll : upTo (prefixSums A) (v + S) = (prefixSums A).length := by
          rw [length_prefixSums]
          exact not_not.mp hEnd
        rw [waysUpTo_eq hAll, number_of_pos (nonneg_of_bits hBits) hS]
        rfl

end Loop

section Start

theorem getLast?_prefixSums (hNe : A ≠ []) : (prefixSums A).getLast? = some A.sum := by
  have hPos := List.length_pos_iff.mpr hNe
  rw [List.getLast?_eq_getElem?, length_prefixSums, getElem?_prefixSums (by omega),
    Nat.sub_add_cancel hPos, prefixSum_length]

variable (hBits : ∀ a ∈ A, a = 0 ∨ a = 1)
include hBits

theorem nonneg_of_mem (hv : v ∈ 0 :: prefixSums A) : 0 ≤ v ∧ v ≤ A.sum := by
  have hNonneg := nonneg_of_bits hBits
  rcases List.mem_cons.mp hv with rfl | hv
  · exact ⟨le_rfl, List.sum_nonneg hNonneg⟩
  · rw [prefixSums] at hv
    obtain ⟨k, -, rfl⟩ := List.mem_map.mp hv
    exact ⟨prefixSum_mono hNonneg (Nat.zero_le _), prefixSum_le_sum hBits _⟩

theorem startsOf_eq_zero (hLt : v < S) : startsOf A S v = 0 := by
  rw [startsOf, List.count_eq_zero]
  intro hMem
  have hGe := (nonneg_of_mem hBits hMem).1
  omega

/-- No subarray has a sum above that of all elements. -/
theorem number_eq_zero (hS : 0 < S) (hLarge : A.sum < S) : number A S = 0 := by
  rw [number_of_pos (nonneg_of_bits hBits) hS, List.sum_eq_zero_iff]
  intro n hn
  obtain ⟨x, hx, rfl⟩ := List.mem_map.mp hn
  have hLe := (nonneg_of_mem hBits (List.mem_cons_of_mem 0 hx)).2
  exact startsOf_eq_zero hBits (S := S) (by omega)

theorem waysUpTo_first (S : Int) : waysUpTo (startsOf A S) (prefixSums A) S =
    ((prefixSums A).count 0 + 1) * (prefixSums A).count S := by
  have hSucc := waysUpTo_succ (startsOf A S) (prefixSums A) (S - 1)
  have hNone : waysUpTo (startsOf A S) (prefixSums A) (S - 1) = 0 := by
    rw [waysUpTo, List.sum_eq_zero_iff]
    intro n hn
    obtain ⟨x, hx, rfl⟩ := List.mem_map.mp hn
    have hLe := of_decide_eq_true (List.mem_filter.mp hx).2
    exact startsOf_eq_zero hBits (by omega)
  rw [Int.sub_add_cancel, hNone, Nat.zero_add] at hSucc
  rw [hSucc, startsOf, Int.sub_self, List.count_cons_self, Nat.mul_comm]

/-- The two ranges of the first block. -/
theorem equal_range_first (v : Int) :
    equal_range (prefixSums A) 0 A.length v =
      ((prefixSums A).countP (· < v), upTo (prefixSums A) v) := by
  rw [← length_prefixSums A]
  exact equal_range_eq (sorted_prefixSums hBits) (Nat.zero_le _)
    fun i x hi => absurd hi (Nat.not_lt_zero i)

theorem countP_lt_zero : (prefixSums A).countP (· < 0) = 0 := by
  rw [List.countP_eq_zero]
  intro x hx
  simpa using (nonneg_of_mem hBits (List.mem_cons_of_mem 0 hx)).1

/-- A sum that is not above that of all elements is one of the partial sums. -/
theorem mem_prefixSums (hS : 0 < S) (hNe : A ≠ []) (hLe : S ≤ A.sum) : S ∈ prefixSums A := by
  have hSplits := splits_upTo (sorted_prefixSums hBits) (S - 1)
  have hBound := hSplits.bound
  have hPos := List.length_pos_iff.mpr hNe
  have hLess : upTo (prefixSums A) (S - 1) < A.length := by
    rw [length_prefixSums] at hBound
    by_contra hFull
    have hLast := getLast?_prefixSums hNe
    rw [List.getLast?_eq_getElem?, length_prefixSums] at hLast
    have hBefore := hSplits.before _ _ (by omega) hLast
    omega
  have hMem := List.mem_of_getElem? (getElem?_upTo hBits (v := S - 1) (by omega) hLess)
  rwa [Int.sub_add_cancel] at hMem

/-- The first block counts the subarrays that end where the partial sum is `S`. -/
theorem first_block (hMem : S ∈ prefixSums A)
    (hLt : waysUpTo (startsOf A S) (prefixSums A) S < 2 ^ 31) :
    int (int (int ((upTo (prefixSums A) 0 : Int) - (0 : Nat)) + 1) *
      int ((upTo (prefixSums A) S : Int) - (prefixSums A).countP (· < S))) =
        waysUpTo (startsOf A S) (prefixSums A) S := by
  have hFirst := waysUpTo_first hBits S
  have hStart := upTo_eq_add (prefixSums A) 0
  have hEnd := upTo_eq_add (prefixSums A) S
  rw [countP_lt_zero hBits, Nat.zero_add] at hStart
  have hDiff : (upTo (prefixSums A) S : Int) - (prefixSums A).countP (· < S) =
      (prefixSums A).count S := by omega
  have hNext : (upTo (prefixSums A) 0 : Int) - (0 : Nat) + 1 =
      ((prefixSums A).count 0 + 1 : Nat) := by omega
  rw [int_int_add, hDiff, hNext,
    int_mul (Nat.succ_pos _) (List.count_pos_iff.mpr hMem) (hFirst ▸ hLt), hFirst]

theorem numSubarraysWithSum_pos (hS : 0 < S) (hOnes : A.sum < 2 ^ 31)
    (hNumber : number A S < 2 ^ 31) : numSubarraysWithSum A S = some (number A S : Int) := by
  rw [numSubarraysWithSum, if_neg hS.ne', partial_sum_eq hBits hOnes]
  by_cases hNe : A = []
  · rw [hNe]
    rfl
  · dsimp only
    rw [getLast?_prefixSums hNe]
    dsimp only
    split_ifs with hLarge
    · rw [number_eq_zero hBits hS hLarge]
      rfl
    · have hMem := mem_prefixSums hBits hS hNe (not_lt.mp hLarge)
      have hLt := waysUpTo_lt hBits hS hNumber S
      have hTotal : int (0 + (waysUpTo (startsOf A S) (prefixSums A) S : Int)) =
          waysUpTo (startsOf A S) (prefixSums A) S := by
        rw [Int.zero_add, int_natCast hLt]
      rw [length_prefixSums, equal_range_first hBits, equal_range_first hBits,
        countP_lt_zero hBits]
      dsimp only
      rw [first_block hBits hMem hLt, hTotal]
      have hLoop := block_loop_spec hBits hS hOnes hNumber (v := 0) le_rfl
        (Nat.lt_succ_of_le (Nat.sub_le A.length _)) 0 ((prefixSums A).countP (· < S))
      rwa [Int.zero_add] at hLoop

end Start

/-- The result is the number of subarrays unless the sum is 0 and 46341 zeros stand side by
side. No iterator at the end is dereferenced. -/
theorem numSubarraysWithSum_iff (A : List Int) (S : Int) (hBits : ∀ a ∈ A, a = 0 ∨ a = 1)
    (hS : 0 ≤ S) (hOnes : A.sum < 2 ^ 31) (hCount : {p | IsSubarray A S p}.encard < 2 ^ 31) :
    ∃ r, numSubarraysWithSum A S = some r ∧
      ((∃ n : Nat, r = n ∧ {p | IsSubarray A S p}.encard = n) ↔
        S ≠ 0 ∨ ¬List.replicate 46341 0 <:+: A) := by
  rw [encard_subarrays] at hCount ⊢
  have hNumber : number A S < 2 ^ 31 := by exact_mod_cast hCount
  have hIff : ∀ r : Int, (∃ n : Nat, r = n ∧ (number A S : ℕ∞) = n) ↔ r = number A S := by
    intro r
    constructor
    · rintro ⟨n, rfl, hEq⟩
      rw [Nat.cast_inj.mp hEq]
    · rintro rfl
      exact ⟨_, rfl, rfl⟩
  rcases hS.eq_or_lt with rfl | hPos
  · refine ⟨_, if_pos rfl, ?_⟩
    rw [hIff, foldl_count_consecutive (nonneg_of_bits hBits) hNumber]
    exact (or_iff_right fun hNe => hNe rfl).symm
  · refine ⟨_, numSubarraysWithSum_pos hBits hPos hOnes hNumber, ?_⟩
    rw [hIff]
    exact iff_of_true rfl (Or.inl hPos.ne')

theorem numSubarraysWithSum_iff_two :
    {p | IsSubarray [1, 0, 1, 0, 1] 2 p}.encard = 4 := by
  have hNumber : number [1, 0, 1, 0, 1] 2 = 4 := by decide
  have hCount : {p | IsSubarray [1, 0, 1, 0, 1] 2 p}.encard < 2 ^ 31 := by
    rw [encard_subarrays, hNumber]
    exact_mod_cast (by decide : 4 < 2 ^ 31)
  obtain ⟨r, hRun, hIff⟩ :=
    numSubarraysWithSum_iff [1, 0, 1, 0, 1] 2 (by decide) (by decide) (by decide) hCount
  have hResult : numSubarraysWithSum [1, 0, 1, 0, 1] 2 = some 4 := by decide +kernel
  obtain ⟨n, hn, hEncard⟩ := hIff.mpr (Or.inl (by decide))
  rw [hResult, Option.some.injEq] at hRun
  obtain rfl : n = 4 := by omega
  exact hEncard

/-- The zeros of an array of 46341 zeros are counted with a product that is no `int`. -/
theorem not_numSubarraysWithSum_eq : ¬∀ (A : List Int) (S : Int), (∀ a ∈ A, a = 0 ∨ a = 1) →
    0 ≤ S → A.sum < 2 ^ 31 → {p | IsSubarray A S p}.encard < 2 ^ 31 →
      ∃ n : Nat, numSubarraysWithSum A S = some (n : Int) ∧
        {p | IsSubarray A S p}.encard = n := by
  intro hAll
  have hZeros : ∀ a ∈ List.replicate 46341 (0 : Int), a = 0 := fun a ha =>
    List.eq_of_mem_replicate ha
  have hNumber : number (List.replicate 46341 0) 0 < 2 ^ 31 := by
    rw [number_replicate (by decide)]
    exact (by decide : 46341 * (46341 + 1) / 2 < 2 ^ 31)
  have hCount : {p | IsSubarray (List.replicate 46341 0) 0 p}.encard < 2 ^ 31 := by
    rw [encard_subarrays]
    exact_mod_cast hNumber
  obtain ⟨n, hRun, hEncard⟩ := hAll (List.replicate 46341 0) 0
    (fun a ha => Or.inl (hZeros a ha)) le_rfl (by rw [List.sum_replicate]; decide) hCount
  rw [encard_subarrays, Nat.cast_inj] at hEncard
  rw [numSubarraysWithSum, if_pos rfl, Option.some.injEq, ← hEncard] at hRun
  have hNone := (foldl_count_consecutive (fun a ha => (hZeros a ha).ge) hNumber).mp hRun
  exact hNone (List.infix_refl _)

end CppPerf.Arrays
