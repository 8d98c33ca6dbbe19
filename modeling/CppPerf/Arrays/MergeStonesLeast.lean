import CppPerf.Arrays.MergeStones
import CppPerf.Semantics.Loops

/-! The least cost of merging all stones, by both functions. -/
namespace CppPerf.Arrays

open Text GridTable Merging Loops

section Topdown

variable {stones : List Int} {K : Nat} {w : Int}

/-- The costs of the sequences of merges that end in one pile. -/
def Costs (stones : List Int) (K : Nat) : Set Int := {c | ∃ pile, Merges K c stones [pile]}

theorem mem_costs_iff : w ∈ Costs stones K ↔ Forest K 1 w stones := merges_one_iff

theorem costs_nonempty_iff (hK : 2 ≤ K) (hSome : stones ≠ []) :
    (Costs stones K).Nonempty ↔ (stones.length - 1) % (K - 1) = 0 := by
  have hForest := exists_forest_iff (l := stones) hK le_rfl
  simp only [← mem_costs_iff] at hForest
  exact hForest.trans (and_iff_right (List.length_pos_of_ne_nil hSome))

/-- Whatever the code adds up is part of the cost of a whole sequence. -/
theorem small_of_costs (hK : 2 ≤ K) (hPos : ∀ x ∈ stones, 0 < x)
    (hCount : (stones.length - 1) % (K - 1) = 0) (hCosts : ∀ c ∈ Costs stones K, c < INT32_MAX) :
    Small stones K := by
  rintro p first last _ hInside ⟨c, hForest, rfl⟩
  have hSplit := segment_append_drop stones hInside.le
  have hMore : p ≠ 1 ∨ (segment stones first last).length < stones.length := by
    rw [length_segment hInside.lt]
    exact hInside.more
  rw [← hSplit] at hCount hMore
  obtain ⟨d, x, hMerges, hLe⟩ := hForest.exists_merges_le hK (u := stones.take first)
    (v := stones.drop (last + 1)) (fun x hx => (hPos x (hSplit ▸ hx)).le) hCount hInside.pos (by
      simpa only [hSplit] using hMore)
  rw [hSplit] at hMerges
  exact hLe.trans_lt (hCosts d ⟨x, hMerges⟩)

theorem value_all_iff (hLonger : 1 < stones.length) :
    Value stones K K 0 (stones.length - 1) w ↔ w ∈ Costs stones K := by
  rw [Value, segment_all, mem_costs_iff, forest_one_iff, or_iff_right]
  rintro ⟨x, rfl, -⟩
  exact absurd hLonger (lt_irrefl 1)

theorem called_all (hK : 2 ≤ K) (hLonger : 1 < stones.length) :
    Called stones K K 0 (stones.length - 1) :=
  ⟨⟨by omega, Nat.zero_le _, by omega, Or.inl (by omega)⟩, le_rfl, fun _ => by omega⟩

/-- The last entry, for more than one stone. -/
theorem mergeStones_topdown_result (hK : 2 ≤ K) (hPos : ∀ x ∈ stones, 0 < x)
    (hHead : ∀ x ∈ stones.head?, int x = x) (hLonger : 1 < stones.length) :
    ∃ v, Result stones K K 0 (stones.length - 1) v ∧
      mergeStones_topdown stones K = some (if v = INT32_MAX then -1 else v) := by
  have hEmpty : Remembers stones K fun _ => -1 := fun first last q hSome =>
    absurd hSome (by decide : ¬(0 : Int) ≤ -1)
  obtain ⟨v, memo', hRun, hResult, -⟩ :=
    computes hK hPos hHead (called_all hK hLonger) _ hEmpty
  refine ⟨v, hResult, ?_⟩
  rw [mergeStones_topdown, hRun]
  rfl

/-- A single stone costs nothing. -/
theorem mergeStones_topdown_single (hK : 2 ≤ K) (x : Int) :
    mergeStones_topdown [x] K = some 0 := by
  have hOne : K ≠ 1 := by omega
  rw [mergeStones_topdown, mergeStones_topdown_from]
  simp [total_of, partial_sum, sums_after, hOne, INT32_MAX]

theorem costs_single (hK : 2 ≤ K) (x : Int) : Costs [x] K = {0} := by
  ext c
  rw [mem_costs_iff, Set.mem_singleton_iff]
  constructor
  · exact fun h => h.eq_zero hK rfl
  · rintro rfl
    exact .stone x .nil

theorem mergeStones_topdown_least (hK : 2 ≤ K) (hPos : ∀ x ∈ stones, 0 < x)
    (hHead : ∀ x ∈ stones.head?, int x = x) (hSome : stones ≠ [])
    (hCount : (stones.length - 1) % (K - 1) = 0) (hCosts : ∀ c ∈ Costs stones K, c < INT32_MAX) :
    ∃ c, mergeStones_topdown stones K = some c ∧ IsLeast (Costs stones K) c := by
  by_cases hLonger : 1 < stones.length
  · obtain ⟨v, hResult, hRun⟩ := mergeStones_topdown_result hK hPos hHead hLonger
    have hSmall := small_of_costs hK hPos hCount hCosts
    obtain ⟨w, hw⟩ := (costs_nonempty_iff hK hSome).mpr hCount
    have hLeast := hResult.least hSmall w ((value_all_iff hLonger).mpr hw)
    have hValues : {w | Value stones K K 0 (stones.length - 1) w} = Costs stones K :=
      Set.ext fun w => value_all_iff hLonger
    rw [hValues] at hLeast
    rw [if_neg (hCosts v hLeast.1).ne] at hRun
    exact ⟨v, hRun, hLeast⟩
  · obtain ⟨x, rfl⟩ := List.length_eq_one_iff.mp
      (le_antisymm (not_lt.mp hLonger) (List.length_pos_of_ne_nil hSome))
    rw [costs_single hK]
    exact ⟨0, mergeStones_topdown_single hK x, isLeast_singleton⟩

theorem mergeStones_topdown_impossible (hK : 2 ≤ K) (hPos : ∀ x ∈ stones, 0 < x)
    (hHead : ∀ x ∈ stones.head?, int x = x) (hSome : stones ≠ [])
    (hCount : (stones.length - 1) % (K - 1) ≠ 0) : mergeStones_topdown stones K = some (-1) := by
  have hLonger : 1 < stones.length := by
    by_contra hShort
    have hOne := le_antisymm (not_lt.mp hShort) (List.length_pos_of_ne_nil hSome)
    rw [hOne] at hCount
    exact hCount (Nat.zero_mod _)
  obtain ⟨v, hResult, hRun⟩ := mergeStones_topdown_result hK hPos hHead hLonger
  have hNone := hResult.none fun w hw =>
    hCount ((costs_nonempty_iff hK hSome).mp ⟨w, (value_all_iff hLonger).mp hw⟩)
  rw [hRun, if_pos hNone]

end Topdown

section Pairs

variable {stones : List Int} {len i j : Nat} {memo : Table Int}

/-- The least cost of one pile, for two piles at a time. -/
def Merged (stones : List Int) (memo : Table Int) (i j : Nat) : Prop :=
  IsLeast {c | Forest 2 1 c (segment stones i j)} (memo i j)

/-- Two piles of a range, with one more merge. -/
theorem forest_two_small (hPos : ∀ x ∈ stones, 0 < x) (hSmall : Small stones 2) (hij : i < j)
    (hj : j < stones.length) {d : Int} (h : Forest 2 2 d (segment stones i j)) :
    0 ≤ d ∧ 0 ≤ (segment stones i j).sum ∧ d + (segment stones i j).sum < INT32_MAX := by
  have hSegment : ∀ x ∈ segment stones i j, 0 ≤ x := fun x hx =>
    (hPos x (mem_of_mem_segment hx)).le
  obtain ⟨q, -, hMerges⟩ := h.merges
  exact ⟨(hMerges.nonneg hSegment).1, List.sum_nonneg hSegment,
    hSmall 2 i j _ ⟨by decide, hij.le, hj, Or.inl (by decide)⟩ ⟨d, h, rfl⟩⟩

theorem min_split_isLeast (hPos : ∀ x ∈ stones, 0 < x) (hSmall : Small stones 2) (hij : i < j)
    (hj : j < stones.length)
    (hMemo : ∀ x, i ≤ x → x < j → Merged stones memo i x ∧ Merged stones memo (x + 1) j) :
    IsLeast {d | Forest 2 2 d (segment stones i j)} (min_split memo i j) := by
  have hTwo {d : Int} : Forest 2 (0 + 2) d (segment stones i j) ↔ _ := forest_segment_iff le_rfl hj
  have hEntry : ∀ x, i ≤ x → x < j →
      Forest 2 2 (memo i x + memo (x + 1) j) (segment stones i j) ∧
        int (memo i x + memo (x + 1) j) = memo i x + memo (x + 1) j ∧
        memo i x + memo (x + 1) j < INT32_MAX := fun x hx hx' => by
    obtain ⟨hLeft, hRight⟩ := hMemo x hx hx'
    have hForest := hTwo.mpr ⟨x, _, _, hx, by omega, rfl, hLeft.1, hRight.1⟩
    obtain ⟨hLow, hTotal, hHigh⟩ := forest_two_small hPos hSmall hij hj hForest
    exact ⟨hForest, int_of_small hLow (by omega), by omega⟩
  obtain ⟨-, hLe⟩ := foldl_min_le (fun x => int (memo i x + memo (x + 1) j))
    (List.range' i (j - i)) INT32_MAX
  have hLower : ∀ x, i ≤ x → x < j → min_split memo i j ≤ memo i x + memo (x + 1) j :=
    fun x hx hx' => by
      rw [← (hEntry x hx hx').2.1]
      exact hLe x (List.mem_range'_1.mpr ⟨hx, by omega⟩)
  constructor
  · rcases foldl_min_attained (fun x => int (memo i x + memo (x + 1) j))
      (List.range' i (j - i)) INT32_MAX with hInit | ⟨x, hx, hEq⟩
    · have hFirst := (hLower i le_rfl hij).trans_lt (hEntry i le_rfl hij).2.2
      exact absurd hInit hFirst.ne
    · obtain ⟨hx, hx'⟩ := List.mem_range'_1.mp hx
      obtain ⟨hForest, hInt, -⟩ := hEntry x hx (by omega)
      rw [min_split, hEq, hInt]
      exact hForest
  · intro d hd
    obtain ⟨x, c₁, c₂, hx, hEnd, rfl, h₁, h₂⟩ := hTwo.mp hd
    obtain ⟨hLeft, hRight⟩ := hMemo x hx (by omega)
    exact (hLower x hx (by omega)).trans (add_le_add (hLeft.2 h₁) (hRight.2 h₂))

theorem merged_single (hi : i < stones.length) (hZero : memo i i = 0) : Merged stones memo i i := by
  rw [Merged, segment_self hi, hZero]
  exact ⟨.stone _ .nil, fun c hc => (Forest.eq_zero le_rfl hc rfl).ge⟩

theorem merge_range_merged (hPos : ∀ x ∈ stones, 0 < x) (hHead : ∀ x ∈ stones.head?, int x = x)
    (hSmall : Small stones 2) (hLen : 0 < len) (hEnd : i + len < stones.length)
    (hMemo : ∀ x, i ≤ x → x < i + len →
      Merged stones memo i x ∧ Merged stones memo (x + 1) (i + len)) :
    ∃ v, merge_range (partial_sum stones) len memo i = some (memo.set i (i + len) v) ∧
      IsLeast {c | Forest 2 1 c (segment stones i (i + len))} v := by
  have hij : i < i + len := by omega
  have hLeast := min_split_isLeast hPos hSmall hij hEnd hMemo
  obtain ⟨hLow, hTotal, hHigh⟩ := forest_two_small hPos hSmall hij hEnd hLeast.1
  have hOne {c : Int} : Forest 2 1 c (segment stones i (i + len)) ↔
      ∃ d, Forest 2 2 d (segment stones i (i + len)) ∧
        c = d + (segment stones i (i + len)).sum := by
    rw [forest_one_iff, or_iff_right]
    rintro ⟨x, hx, -⟩
    have hLength := congrArg List.length hx
    rw [length_segment hEnd, List.length_singleton] at hLength
    omega
  rw [merge_range, total_of_partial_sum hHead hij.le hEnd, Option.bind_eq_bind, Option.bind_some,
    int_of_small hTotal (by omega), int_of_small (by omega) (by omega)]
  refine ⟨_, rfl, hOne.mpr ⟨_, hLeast.1, Int.add_comm _ _⟩, fun c hc => ?_⟩
  obtain ⟨d, hd, rfl⟩ := hOne.mp hc
  rw [Int.add_comm]
  exact add_le_add_left (hLeast.2 hd) _

/-- The ranges that the loops have been through. -/
def Filled (stones : List Int) (len i : Nat) (memo : Table Int) : Prop :=
  ∀ a b, a ≤ b → b < stones.length → b - a < len ∨ b - a = len ∧ a < i → Merged stones memo a b

theorem filled_step (hPos : ∀ x ∈ stones, 0 < x) (hHead : ∀ x ∈ stones.head?, int x = x)
    (hSmall : Small stones 2) (hLen : 0 < len) (hEnd : i + len < stones.length)
    (h : Filled stones len i memo) :
    ∃ memo', merge_range (partial_sum stones) len memo i = some memo' ∧
      Filled stones len (i + 1) memo' := by
  obtain ⟨v, hRun, hv⟩ := merge_range_merged hPos hHead hSmall hLen hEnd fun x hx hx' =>
    ⟨h i x hx (by omega) (Or.inl (by omega)), h (x + 1) (i + len) (by omega) hEnd
      (Or.inl (by omega))⟩
  refine ⟨_, hRun, fun a b hab hb hDone => ?_⟩
  by_cases hNew : a = i ∧ b = i + len
  · rw [hNew.1, hNew.2, Merged, memo.set_self]
    exact hv
  · rw [Merged, memo.set_of_ne (by omega)]
    exact h a b hab hb (by omega)

theorem mergeStones2_least (hPos : ∀ x ∈ stones, 0 < x) (hHead : ∀ x ∈ stones.head?, int x = x)
    (hSome : stones ≠ []) (hSmall : Small stones 2) :
    ∃ c, mergeStones2 stones 2 = some c ∧ IsLeast (Costs stones 2) c := by
  have hLength := List.length_pos_of_ne_nil hSome
  have hStart : Filled stones 1 0 (Table.const 0) := fun a b hab hb hDone => by
    obtain rfl : a = b := by omega
    exact merged_single hb rfl
  have hRound : ∀ len memo, 1 ≤ len → len < 1 + (stones.length - 1) → Filled stones len 0 memo →
      ∃ memo', (List.range (stones.length - len)).foldlM
          (merge_range (partial_sum stones) len) memo = some memo' ∧
        Filled stones (len + 1) 0 memo' := fun len memo hLen hLt h => by
    obtain ⟨memo', hRun, hDone⟩ := foldlM_range'_holds (P := Filled stones len) 0
      (stones.length - len) (fun i memo _ hi h =>
        filled_step hPos hHead hSmall hLen (by omega) h) h
    refine ⟨memo', by rwa [List.range_eq_range'], fun a b hab hb hNew => ?_⟩
    exact hDone a b hab hb (by omega)
  obtain ⟨memo, hRun, hFilled⟩ := foldlM_range'_holds (P := fun len => Filled stones len 0) 1
    (stones.length - 1) hRound hStart
  have hLast := hFilled 0 (stones.length - 1) (Nat.zero_le _) (by omega) (Or.inl (by omega))
  rw [Merged, segment_all] at hLast
  have hCosts : Costs stones 2 = {c | Forest 2 1 c stones} := Set.ext fun c => mem_costs_iff
  rw [hCosts]
  refine ⟨memo 0 (stones.length - 1), ?_, hLast⟩
  rw [mergeStones2, hRun, Option.bind_eq_bind, Option.bind_some, if_neg (by omega)]

end Pairs

theorem costs_nonneg {stones : List Int} {K : Nat} {c : Int} (hPos : ∀ x ∈ stones, 0 < x)
    (hc : c ∈ Costs stones K) : 0 ≤ c := by
  obtain ⟨pile, hMerges⟩ := hc
  exact (hMerges.nonneg fun x hx => (hPos x hx).le).1

/-- A bound on the costs that is easy to compute. -/
theorem costs_le {stones : List Int} {K : Nat} (hPos : ∀ x ∈ stones, 0 < x) (hK : 2 ≤ K) {c : Int}
    (hc : c ∈ Costs stones K) : c ≤ stones.length * stones.sum := by
  obtain ⟨pile, hMerges⟩ := hc
  have hNonneg : ∀ x ∈ stones, 0 ≤ x := fun x hx => (hPos x hx).le
  have hLe := hMerges.cost_le hK hNonneg
  have hTotal : 0 ≤ stones.sum := List.sum_nonneg hNonneg
  rw [List.length_singleton, one_nsmul, nsmul_eq_mul] at hLe
  omega

/-- The recursion finds the least cost, or that there is no way to end in one pile. The costs
include those of the sequences that are not the best. -/
theorem mergeStones_topdown_spec (stones : List Int) (K : Nat) (hSome : stones ≠ [])
    (hPos : ∀ x ∈ stones, 0 < x) (hInt : ∀ x ∈ stones, x < 2 ^ 31) (hK : 2 ≤ K)
    (hCosts : ∀ c ∈ Costs stones K, c < 2 ^ 31 - 1) :
    ((Costs stones K).Nonempty →
        ∃ c, mergeStones_topdown stones K = some c ∧ IsLeast (Costs stones K) c) ∧
      (mergeStones_topdown stones K = some (-1) ↔ Costs stones K = ∅) ∧
      (Costs stones K = ∅ ↔ (stones.length - 1) % (K - 1) ≠ 0) ∧
      (K = 2 → mergeStones_topdown stones K = mergeStones2 stones 2) := by
  have hHead : ∀ x ∈ stones.head?, int x = x := fun x hx => by
    have hMem := List.mem_of_mem_head? hx
    have hLow := hPos x hMem
    have hHigh := hInt x hMem
    exact Int.bmod_eq_of_le (by omega) (by omega)
  have hEmpty : Costs stones K = ∅ ↔ (stones.length - 1) % (K - 1) ≠ 0 := by
    rw [← Set.not_nonempty_iff_eq_empty, costs_nonempty_iff hK hSome]
  have hLeast (h : (Costs stones K).Nonempty) := mergeStones_topdown_least hK hPos hHead hSome
    ((costs_nonempty_iff hK hSome).mp h) hCosts
  refine ⟨hLeast, ⟨fun hRun => ?_, fun h => ?_⟩, hEmpty, ?_⟩
  · by_contra hSome
    obtain ⟨c, hRun', hc⟩ := hLeast (Set.nonempty_iff_ne_empty.mpr hSome)
    have hNonneg := costs_nonneg hPos hc.1
    rw [hRun, Option.some.injEq] at hRun'
    omega
  · exact mergeStones_topdown_impossible hK hPos hHead hSome (hEmpty.mp h)
  · rintro rfl
    have hCount : (stones.length - 1) % (2 - 1) = 0 := Nat.mod_one _
    obtain ⟨c, hRun, hc⟩ := hLeast ((costs_nonempty_iff hK hSome).mpr hCount)
    obtain ⟨d, hRun', hd⟩ := mergeStones2_least hPos hHead hSome
      (small_of_costs hK hPos hCount hCosts)
    rw [hRun, hRun', hc.unique hd]

/-- Three stones can be merged two at a time. -/
theorem mergeStones_topdown_spec_three :
    ∃ c, mergeStones_topdown [3, 1, 2] 2 = some c ∧ IsLeast (Costs [3, 1, 2] 2) c ∧
      mergeStones2 [3, 1, 2] 2 = some c := by
  have hPos : ∀ x ∈ [3, 1, 2], (0 : Int) < x := by decide
  obtain ⟨hLeast, -, hEmpty, hPairs⟩ := mergeStones_topdown_spec [3, 1, 2] 2 (by decide) hPos
    (by decide) (by decide) fun c hc => (costs_le hPos (by decide) hc).trans_lt (by decide)
  have hSome : (Costs [3, 1, 2] 2).Nonempty := by
    rw [Set.nonempty_iff_ne_empty, Ne, hEmpty]
    decide
  obtain ⟨c, hRun, hc⟩ := hLeast hSome
  exact ⟨c, hRun, hc, (hPairs rfl).symm.trans hRun⟩

end CppPerf.Arrays
