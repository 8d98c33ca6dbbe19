import CppPerf.Arrays.MergeStonesLeast
import CppPerf.Semantics.Subarrays

/-! `mergeStones` of `mergeStones.cpp` does not agree with `mergeStones_topdown`. Ranges that
cannot be merged and single piles both have the entry 0. -/
namespace CppPerf.Arrays

open Text GridTable Merging Subarrays Loops

/-- By `k`, `i` and `j`. -/
abbrev Layers := Nat → Table Int

/-- The loop over `x`. -/
def min_layer (memo : Layers) (k i j : Nat) : Int :=
  (List.range' i (j - i)).foldl
    (fun min_val x => min min_val (int (memo 1 i x + memo (k - 1) (x + 1) j))) INT32_MAX

/-- One round of the loop over `i`. -/
def layer_range (stones : List Int) (k len : Nat) (memo : Layers) (i : Nat) : Option Layers := do
  let j := i + len
  let total_ij ← total_of stones i j
  return Function.update memo k ((memo k).set i j (int (total_ij + min_layer memo k i j)))

def mergeStones (stones : List Int) (K : Nat) : Option Int := do
  let n := stones.length
  let stones := partial_sum stones
  let memo ← (List.range' 1 (K - 1)).foldlM
    (fun memo k => (List.range' k (n - k)).foldlM
      (fun memo len => (List.range (n - len)).foldlM (layer_range stones k len) memo) memo)
    fun _ => Table.const 0
  if n = 0 ∨ K = 0 then none else some (memo (K - 1) 0 (n - 1))

section Entries

variable {stones : List Int} {k m i j x : Nat}

/-- What `mergeStones` takes for the cost of merging `k + 2` piles: either the first stone is a
pile, or only the last `k` stones and one more are. -/
def layerCost (stones : List Int) : (k i j : Nat) → Int
  | 0, i, j => (segment stones i j).sum
  | k + 1, i, j => (segment stones i j).sum +
      min (layerCost stones k (i + 1) j) (segment stones i (j - (k + 1))).sum

/-- The entry of a range, once it has been computed. -/
def entry (stones : List Int) (k i j : Nat) : Int :=
  match k with
  | 0 => 0
  | k + 1 => if j - i ≤ k then 0 else layerCost stones k i j

theorem sum_segment_append (stones : List Int) (hx : i ≤ x) (hj : x < j) :
    (segment stones i j).sum = (segment stones i x).sum + (segment stones (x + 1) j).sum := by
  rw [← segment_append stones hx hj, List.sum_append]

variable (hPos : ∀ x ∈ stones, 0 < x)
include hPos

theorem sum_segment_nonneg (i j : Nat) : 0 ≤ (segment stones i j).sum :=
  List.sum_nonneg fun x hx => (hPos x (mem_of_mem_segment hx)).le

theorem sum_segment_pos (hij : i ≤ j) (hj : j < stones.length) : 0 < (segment stones i j).sum := by
  apply List.sum_pos
  · exact fun x hx => hPos x (mem_of_mem_segment hx)
  · apply List.ne_nil_of_length_pos
    rw [length_segment hj]
    omega

theorem sum_segment_mono (i : Nat) {j j' : Nat} (h : j ≤ j') :
    (segment stones i j).sum ≤ (segment stones i j').sum := by
  have hNonneg : ∀ x ∈ stones.drop i, 0 ≤ x := fun x hx => (hPos x (List.mem_of_mem_drop hx)).le
  exact prefixSum_mono hNonneg (show j + 1 - i ≤ j' + 1 - i by omega)

theorem sum_segment_le_sum (hij : i ≤ j) : (segment stones i j).sum ≤ stones.sum := by
  have hSum := congrArg List.sum (segment_append_drop stones hij)
  rw [List.sum_append, List.sum_append] at hSum
  have hFront : 0 ≤ (stones.take i).sum :=
    List.sum_nonneg fun x hx => (hPos x (List.mem_of_mem_take hx)).le
  have hBehind : 0 ≤ (stones.drop (j + 1)).sum :=
    List.sum_nonneg fun x hx => (hPos x (List.mem_of_mem_drop hx)).le
  omega

theorem layerCost_bounds (k i j : Nat) :
    (segment stones i j).sum ≤ layerCost stones k i j ∧
      layerCost stones k i j ≤ 2 * (segment stones i j).sum := by
  have hTotal := sum_segment_nonneg hPos i j
  induction k generalizing i j with
  | zero =>
      rw [layerCost]
      omega
  | succ k ih =>
      have hRest := (ih (i + 1) j (sum_segment_nonneg hPos _ _)).1
      have hRestNonneg := sum_segment_nonneg hPos (i + 1) j
      have hFirst := sum_segment_nonneg hPos i (j - (k + 1))
      have hFirstLe := sum_segment_mono hPos i (Nat.sub_le j (k + 1))
      rw [layerCost]
      omega

theorem entry_bounds (k i j : Nat) :
    0 ≤ entry stones k i j ∧ entry stones k i j ≤ 2 * (segment stones i j).sum := by
  have hTotal := sum_segment_nonneg hPos i j
  cases k with
  | zero =>
      rw [entry]
      omega
  | succ k =>
      have hBounds := layerCost_bounds hPos k i j
      rw [entry]
      split_ifs <;> omega

omit hPos in
/-- The layer for two piles. -/
theorem entry_one (hij : i < j) : entry stones 1 i j = (segment stones i j).sum := by
  rw [entry, if_neg (by omega), layerCost]

omit hPos in
theorem entry_one_self (i : Nat) : entry stones 1 i i = 0 := by
  rw [entry, if_pos (by omega)]

/-- A split costs no less than one of the two that `layerCost` compares. -/
theorem le_split (hix : i < x) (hxj : x < j) :
    min (layerCost stones m (i + 1) j) (segment stones i (j - (m + 1))).sum ≤
      entry stones 1 i x + entry stones (m + 1) (x + 1) j := by
  rw [entry_one hix, entry]
  apply (min_le_right _ _).trans
  split_ifs with hShort
  · rw [Int.add_zero]
    exact sum_segment_mono hPos i (by omega)
  · have hBounds := layerCost_bounds hPos m (x + 1) j
    have hSplit := sum_segment_append stones hix.le hxj
    have hLe := sum_segment_mono hPos i (Nat.sub_le j (m + 1))
    omega

end Entries

section Loops

variable {stones : List Int} {memo : Layers} {k len i j : Nat}

variable (hPos : ∀ x ∈ stones, 0 < x) (hTotal : 2 * stones.sum < 2 ^ 31)
include hPos hTotal

theorem int_split (hij : i ≤ j) (x : Nat) (hix : i ≤ x) (hxj : x < j) :
    int (entry stones 1 i x + entry stones k (x + 1) j) =
      entry stones 1 i x + entry stones k (x + 1) j := by
  have hFirst := entry_bounds hPos 1 i x
  have hRest := entry_bounds hPos k (x + 1) j
  have hSplit := sum_segment_append stones hix hxj
  have hLe := sum_segment_le_sum hPos hij
  exact Int.bmod_eq_of_le (by omega) (by omega)

/-- The table at the splits of a range, as far as it is read. -/
def ReadsEntries (stones : List Int) (memo : Layers) (k i j : Nat) : Prop :=
  ∀ x, i ≤ x → x < j → memo 1 i x = entry stones 1 i x ∧
    memo (k - 1) (x + 1) j = entry stones (k - 1) (x + 1) j

theorem min_layer_eq (hij : i ≤ j) (hMemo : ReadsEntries stones memo k i j) {v : Int}
    (hStart : v ≤ INT32_MAX)
    (hLower : ∀ x, i ≤ x → x < j → v ≤ entry stones 1 i x + entry stones (k - 1) (x + 1) j)
    (hFound : ∃ x, i ≤ x ∧ x < j ∧ entry stones 1 i x + entry stones (k - 1) (x + 1) j = v) :
    min_layer memo k i j = v := by
  have hSplit : ∀ x, i ≤ x → x < j → int (memo 1 i x + memo (k - 1) (x + 1) j) =
      entry stones 1 i x + entry stones (k - 1) (x + 1) j := fun x hx hx' => by
    obtain ⟨hFirst, hRest⟩ := hMemo x hx hx'
    rw [hFirst, hRest]
    exact int_split hPos hTotal hij x hx hx'
  apply foldl_min_eq hStart
  · intro x hx
    obtain ⟨hix, hxj⟩ := List.mem_range'_1.mp hx
    rw [hSplit x hix (by omega)]
    exact hLower x hix (by omega)
  · obtain ⟨x, hix, hxj, hEq⟩ := hFound
    exact ⟨x, List.mem_range'_1.mpr ⟨hix, by omega⟩, by rw [hSplit x hix hxj, hEq]⟩

/-- For two piles the first stone is taken for a pile, and the rest costs nothing. -/
theorem min_layer_one (hij : i < j) (hMemo : ReadsEntries stones memo 1 i j) :
    min_layer memo 1 i j = 0 := by
  apply min_layer_eq hPos hTotal hij.le hMemo (by decide)
  · intro x _ _
    have hFirst := (entry_bounds hPos 1 i x).1
    have hRest := (entry_bounds hPos (1 - 1) (x + 1) j).1
    omega
  · refine ⟨i, le_rfl, hij, ?_⟩
    rw [entry_one_self]
    rfl

theorem min_layer_add_two {m : Nat} (hij : i + (m + 2) ≤ j)
    (hMemo : ReadsEntries stones memo (m + 2) i j) :
    min_layer memo (m + 2) i j =
      min (layerCost stones m (i + 1) j) (segment stones i (j - (m + 1))).sum := by
  have hRest : entry stones (m + 1) (i + 1) j = layerCost stones m (i + 1) j := by
    rw [entry, if_neg (by omega)]
  apply min_layer_eq hPos hTotal (by omega) hMemo
  · have hLe := sum_segment_le_sum hPos (show i ≤ j - (m + 1) by omega)
    apply (min_le_right _ _).trans
    rw [INT32_MAX]
    omega
  · intro x hix hxj
    rcases Nat.eq_or_lt_of_le hix with rfl | hLater
    · rw [entry_one_self, Int.zero_add, show m + 2 - 1 = m + 1 from rfl, hRest]
      exact min_le_left _ _
    · exact le_split hPos hLater hxj
  · rcases min_choice (layerCost stones m (i + 1) j) (segment stones i (j - (m + 1))).sum with
      hFirst | hLast
    · refine ⟨i, le_rfl, by omega, ?_⟩
      rw [entry_one_self, Int.zero_add, show m + 2 - 1 = m + 1 from rfl, hRest, hFirst]
    · refine ⟨j - (m + 1), by omega, by omega, ?_⟩
      rw [entry_one (by omega), show m + 2 - 1 = m + 1 from rfl, entry, if_pos (by omega), hLast,
        Int.add_zero]

/-- The loop over `x` finds the entry. -/
theorem int_min_layer (hk : 0 < k) (hkj : i + k ≤ j) (hMemo : ReadsEntries stones memo k i j) :
    int (int (segment stones i j).sum + min_layer memo k i j) = entry stones k i j := by
  have hLe := sum_segment_le_sum hPos (show i ≤ j by omega)
  have hNonneg := sum_segment_nonneg hPos i j
  have hBounds := entry_bounds hPos k i j
  have hInt : int (segment stones i j).sum = (segment stones i j).sum :=
    Int.bmod_eq_of_le (by omega) (by omega)
  have hMin : (segment stones i j).sum + min_layer memo k i j = entry stones k i j := by
    match k with
    | 1 => rw [min_layer_one hPos hTotal (by omega) hMemo, entry_one (by omega), Int.add_zero]
    | m + 2 =>
        rw [min_layer_add_two hPos hTotal hkj hMemo, entry, if_neg (by omega), layerCost]
  rw [hInt, hMin]
  exact Int.bmod_eq_of_le (by omega) (by omega)

end Loops

section Filling

variable {stones : List Int} {memo : Layers} {k len i : Nat}

/-- The ranges that the loops have been through have their entries, all others 0. -/
def LayersFilled (stones : List Int) (k len i : Nat) (memo : Layers) : Prop :=
  ∀ a b c, b ≤ c → c < stones.length → memo a b c =
    if a < k ∨ a = k ∧ (c - b < len ∨ c - b = len ∧ b < i) then entry stones a b c else 0

theorem entry_short {a b c : Nat} (h : c - b < a ∨ a = 0) : entry stones a b c = 0 := by
  match a with
  | 0 => rfl
  | a + 1 => rw [entry, if_pos (by omega)]

theorem layersFilled_start (stones : List Int) :
    LayersFilled stones 1 1 0 fun _ => Table.const 0 := by
  intro a b c hbc _
  split_ifs with hDone
  · rw [entry_short (by omega)]
    rfl
  · rfl

theorem layersFilled_len (h : LayersFilled stones k len (stones.length - len) memo) :
    LayersFilled stones k (len + 1) 0 memo := by
  intro a b c hbc hc
  rw [h a b c hbc hc]
  exact if_congr (by omega) rfl rfl

/-- In the next layer the short ranges have the entry 0 from the start. -/
theorem layersFilled_layer (hLen : stones.length ≤ len) (h : LayersFilled stones k len 0 memo) :
    LayersFilled stones (k + 1) (k + 1) 0 memo := by
  intro a b c hbc hc
  rw [h a b c hbc hc]
  by_cases hNext : a = k + 1 ∧ c - b < k + 1
  · rw [if_neg (by omega), if_pos (by omega), entry_short (by omega)]
  · exact if_congr (by omega) rfl rfl

variable (hPos : ∀ x ∈ stones, 0 < x) (hTotal : 2 * stones.sum < 2 ^ 31)
include hPos hTotal

theorem int_head : ∀ x ∈ stones.head?, int x = x := fun x hx => by
  have hMem := List.mem_of_mem_head? hx
  have hLow := hPos x hMem
  have hLe := List.single_le_sum (fun y hy => (hPos y hy).le) x hMem
  exact Int.bmod_eq_of_le (by omega) (by omega)

theorem layersFilled_step (hk : 0 < k) (hLen : k ≤ len) (hEnd : i + len < stones.length)
    (h : LayersFilled stones k len i memo) :
    ∃ memo', layer_range (partial_sum stones) k len memo i = some memo' ∧
      LayersFilled stones k len (i + 1) memo' := by
  have hReads : ReadsEntries stones memo k i (i + len) := by
    intro x hix hxj
    rw [h 1 i x hix (by omega), h (k - 1) (x + 1) (i + len) hxj hEnd, if_pos (by omega),
      if_pos (by omega)]
    exact ⟨rfl, rfl⟩
  rw [layer_range, total_of_partial_sum (int_head hPos hTotal) (by omega) hEnd,
    Option.bind_eq_bind, Option.bind_some, int_min_layer hPos hTotal hk (by omega) hReads]
  refine ⟨_, rfl, fun a b c hbc hc => ?_⟩
  by_cases hLayer : a = k
  · subst hLayer
    rw [Function.update_self]
    by_cases hNew : b = i ∧ c = i + len
    · rw [hNew.1, hNew.2, Table.set_self, if_pos (by omega)]
    · rw [Table.set_of_ne _ (by omega), h a b c hbc hc]
      exact if_congr (by omega) rfl rfl
  · rw [Function.update_of_ne hLayer, h a b c hbc hc]
    exact if_congr (by omega) rfl rfl

theorem layer_loop (hk : 0 < k) (h : LayersFilled stones k k 0 memo) :
    ∃ memo', (List.range' k (stones.length - k)).foldlM
        (fun memo len => (List.range (stones.length - len)).foldlM
          (layer_range (partial_sum stones) k len) memo) memo = some memo' ∧
      LayersFilled stones (k + 1) (k + 1) 0 memo' := by
  have hRound : ∀ len memo, k ≤ len → len < k + (stones.length - k) →
      LayersFilled stones k len 0 memo →
      ∃ memo', (List.range (stones.length - len)).foldlM
          (layer_range (partial_sum stones) k len) memo = some memo' ∧
        LayersFilled stones k (len + 1) 0 memo' := fun len memo hLen hLt h => by
    obtain ⟨memo', hRun, hDone⟩ := foldlM_range'_holds (P := LayersFilled stones k len) 0
      (stones.length - len) (fun i memo _ hi h =>
        layersFilled_step hPos hTotal hk hLen (by omega) h) h
    rw [Nat.zero_add] at hDone
    exact ⟨memo', by rwa [List.range_eq_range'], layersFilled_len hDone⟩
  obtain ⟨memo', hRun, hDone⟩ := foldlM_range'_holds
    (P := fun len => LayersFilled stones k len 0) k (stones.length - k) hRound h
  exact ⟨memo', hRun, layersFilled_layer (by omega) hDone⟩

/-- What `mergeStones` returns. -/
theorem mergeStones_eq {K : Nat} (hSome : stones ≠ []) (hK : 1 ≤ K) :
    mergeStones stones K = some (entry stones (K - 1) 0 (stones.length - 1)) := by
  obtain ⟨memo, hRun, hFilled⟩ := foldlM_range'_holds (P := fun k => LayersFilled stones k k 0) 1
    (K - 1) (fun k memo hk _ h => layer_loop hPos hTotal hk h) (layersFilled_start stones)
  have hLength := List.length_pos_of_ne_nil hSome
  have hEntry := hFilled (K - 1) 0 (stones.length - 1) (Nat.zero_le _) (by omega)
  rw [if_pos (by omega)] at hEntry
  rw [mergeStones, hRun, Option.bind_eq_bind, Option.bind_some, if_neg (by omega), hEntry]

end Filling

section Agreement

variable {stones u m v : List Int} {K k : Nat} {c : Int}

theorem mem_costs_iff_of_lt (hLonger : 1 < stones.length) :
    c ∈ Costs stones K ↔ ∃ d, Forest K K d stones ∧ c = d + stones.sum := by
  rw [mem_costs_iff, forest_one_iff, or_iff_right]
  rintro ⟨x, rfl, -⟩
  exact absurd hLonger (lt_irrefl 1)

/-- As many stones as are merged at a time. -/
theorem costs_of_length_eq (hK : 2 ≤ K) (hLength : stones.length = K) :
    Costs stones K = {stones.sum} := by
  ext c
  rw [mem_costs_iff_of_lt (by omega), Set.mem_singleton_iff]
  constructor
  · rintro ⟨d, hForest, rfl⟩
    rw [hForest.eq_zero hK hLength, Int.zero_add]
  · rintro rfl
    have hStones := forest_stones K stones
    rw [hLength] at hStones
    exact ⟨0, hStones, (Int.zero_add _).symm⟩

theorem merges_pos (hK : 1 ≤ K) (h : Merges K c u v) (hLess : v.length < u.length)
    (hPos : ∀ x ∈ u, 0 < x) : 0 < c := by
  cases h with
  | done => exact absurd hLess (lt_irrefl _)
  | @merge d _ a m b hLength rest =>
      have hPile : 0 < m.sum := by
        apply List.sum_pos
        · exact fun x hx => hPos x (by simp [hx])
        · apply List.ne_nil_of_length_pos
          omega
      have hAll : ∀ x ∈ a ++ m.sum :: b, 0 ≤ x := by
        intro x hx
        rcases List.mem_append.mp hx with hFront | hBehind
        · exact (hPos x (by simp [hFront])).le
        · rcases List.mem_cons.mp hBehind with rfl | hBehind
          · exact hPile.le
          · exact (hPos x (by simp [hBehind])).le
      exact add_pos_of_pos_of_nonneg hPile (rest.nonneg hAll).1

/-- More stones cost more than their total. -/
theorem sum_lt_of_mem_costs (hK : 2 ≤ K) (hPos : ∀ x ∈ stones, 0 < x) (hMore : K < stones.length)
    (hc : c ∈ Costs stones K) : stones.sum < c := by
  obtain ⟨d, hForest, rfl⟩ := (mem_costs_iff_of_lt (by omega)).mp hc
  obtain ⟨q, hLength, hMerges⟩ := hForest.merges
  have hCost := merges_pos (by omega) hMerges (by omega) hPos
  omega

/-- Two merges. -/
theorem window_mem_costs (hK : 2 ≤ K) (hm : m.length = K) (hRest : u.length + v.length + 1 = K) :
    m.sum + (u ++ m ++ v).sum ∈ Costs (u ++ m ++ v) K := by
  have hLength : (u ++ m.sum :: v).length = K := by
    rw [List.length_append, List.length_cons]
    omega
  have hLast : (u ++ m.sum :: v).sum ∈ Costs (u ++ m.sum :: v) K := by
    rw [costs_of_length_eq hK hLength]
    rfl
  obtain ⟨pile, hMerges⟩ := hLast
  have hSum : (u ++ m.sum :: v).sum = (u ++ m ++ v).sum := by
    simp
  rw [← hSum]
  exact ⟨pile, .merge u m v hm hMerges⟩

theorem segment_mem_costs {first last : Nat} (hK : 2 ≤ K) (hSegment : last + 1 - first = K)
    (hLast : last < stones.length) (hRest : stones.length + 1 = 2 * K) :
    (segment stones first last).sum + stones.sum ∈ Costs stones K := by
  have hCost := window_mem_costs (u := stones.take first) (m := segment stones first last)
    (v := stones.drop (last + 1)) hK (by rwa [length_segment hLast]) (by
      rw [List.length_take, List.length_drop]
      omega)
  rwa [segment_append_drop stones (by omega)] at hCost

variable (hPos : ∀ x ∈ stones, 0 < x)
include hPos

/-- With one merge or two, what `mergeStones` returns is not the least cost. -/
theorem not_least_of_few (hk : k + 3 = K)
    (hFew : stones.length = K ∨ stones.length + 1 = 2 * K) :
    ¬IsLeast (Costs stones K) (layerCost stones (k + 1) 0 (stones.length - 1)) := by
  intro hLeast
  have hAll : segment stones 0 (stones.length - 1) = stones := segment_all
  have hRest := (layerCost_bounds hPos k 1 (stones.length - 1)).1
  rw [layerCost, hAll, Nat.zero_add] at hLeast
  rcases hFew with hOne | hTwo
  · have hTotal : stones.sum ∈ Costs stones K := by
      rw [costs_of_length_eq (by omega) hOne]
      rfl
    have hLe := hLeast.2 hTotal
    have hTail := sum_segment_pos hPos (i := 1) (j := stones.length - 1) (by omega) (by omega)
    have hFront := sum_segment_pos hPos (i := 0) (j := stones.length - 1 - (k + 1)) (by omega)
      (by omega)
    omega
  · have hFirst := hLeast.2 (segment_mem_costs (by omega)
      (show k + 2 + 1 - 0 = K by omega) (by omega) hTwo)
    have hLast := hLeast.2 (segment_mem_costs (by omega)
      (show stones.length - 1 + 1 - (k + 2) = K by omega) (by omega) hTwo)
    have hFirstLess := sum_segment_append stones (i := 0) (x := k + 2)
      (j := stones.length - 1 - (k + 1)) (by omega) (by omega)
    have hFirstMore := sum_segment_pos hPos (i := k + 2 + 1) (j := stones.length - 1 - (k + 1))
      (by omega) (by omega)
    have hLastLess : (segment stones 1 (stones.length - 1)).sum = (segment stones 1 (k + 1)).sum +
        (segment stones (k + 2) (stones.length - 1)).sum :=
      sum_segment_append stones (by omega) (by omega)
    have hLastMore := sum_segment_pos hPos (i := 1) (j := k + 1) (by omega) (by omega)
    omega

/-- Where all stones can be merged, the last entry is the least cost in these cases only. -/
theorem least_layerCost_iff (hK : 2 ≤ K) (hMore : 1 < stones.length)
    (hCount : (stones.length - 1) % (K - 1) = 0) :
    IsLeast (Costs stones K) (layerCost stones (K - 2) 0 (stones.length - 1)) ↔
      (K = 2 ∧ stones.length = 2) ∨ (3 ≤ K ∧ 3 * K ≤ stones.length + 2 ∧
        IsLeast (Costs stones K) (layerCost stones (K - 2) 0 (stones.length - 1))) := by
  constructor
  · intro hLeast
    obtain ⟨j, hj⟩ := Nat.dvd_of_mod_eq_zero hCount
    match K, hK, hLeast with
    | 2, hK, hLeast =>
        refine Or.inl ⟨rfl, ?_⟩
        by_contra hThree
        have hLess := sum_lt_of_mem_costs hK hPos (by omega) hLeast.1
        rw [layerCost, segment_all] at hLess
        exact lt_irrefl _ hLess
    | k + 3, hK, hLeast =>
        refine Or.inr ⟨by omega, ?_, hLeast⟩
        have hNot := mt (not_least_of_few hPos rfl) (not_not.mpr hLeast)
        match j with
        | 0 => omega
        | 1 => omega
        | 2 => omega
        | j + 3 =>
            have hLe : (k + 3 - 1) * 3 ≤ (k + 3 - 1) * (j + 3) := Nat.mul_le_mul_left _ (by omega)
            omega
  · rintro (⟨rfl, hTwo⟩ | ⟨-, -, hLeast⟩)
    · rw [costs_of_length_eq hK hTwo, layerCost, segment_all]
      exact isLeast_singleton
    · exact hLeast

end Agreement

end CppPerf.Arrays
