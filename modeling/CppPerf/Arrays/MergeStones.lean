import CppPerf.Semantics.GridTable
import CppPerf.Semantics.Merging
import CppPerf.Arrays.PartialSum
import Mathlib.Algebra.Order.Ring.Int
import Mathlib.Logic.Function.Basic
import Mathlib.Order.Bounds.Basic

/-! `mergeStones_topdown` and `mergeStones2` of `mergeStones.cpp`. Reading an array past its end
fails. -/
namespace CppPerf.Arrays

open Text GridTable

def INT32_MAX : Int := 2147483647

/-- By `first`, `last` and `piles2merge - 1`. -/
abbrev Memo := Nat × Nat × Nat → Int

/-- The total of the stones from `first` to `last`, where `stones` has the partial sums. -/
def total_of (stones : List Int) (first last : Nat) : Option Int := do
  let high ← stones[last]?
  let low ← if 0 < first then stones[first - 1]? else some 0
  return int (high - low)

mutual

/-- The recursion of `mergeStones_topdown`. For `K = 1` it may not end. -/
def mergeStones_topdown_from (stones : List Int) (K piles2merge first last : Nat) (memo : Memo) :
    Option (Int × Memo) := do
  let len := last + 1 - first
  let total ← total_of stones first last
  if len = 1 ∧ piles2merge = 1 then some (total, memo)
  else if len = 1 ∧ K = piles2merge then some (0, memo)
  else if len < piles2merge then some (INT32_MAX, memo)
  else if len = piles2merge then some (total, memo)
  else if 0 ≤ memo (first, last, piles2merge - 1) then
    some (memo (first, last, piles2merge - 1), memo)
  else
    match piles2merge with
    | 0 => none
    | 1 =>
        if K < 2 then none
        else do
          let (pile, memo) ← mergeStones_topdown_from stones K K first last memo
          let ans := if pile = INT32_MAX then pile else int (pile + total)
          return (ans, Function.update memo (first, last, 0) ans)
    | q + 2 => do
        let (ans, memo) ← split_loop stones K q first last 0 INT32_MAX memo
        return (ans, Function.update memo (first, last, q + 1) ans)
termination_by (last - first, 2 - piles2merge, last + 2 - first)

/-- The loop over `k = first + i`, where `piles2merge` is `q + 2`. -/
def split_loop (stones : List Int) (K q first last i : Nat) (ans : Int) (memo : Memo) :
    Option (Int × Memo) :=
  if first + i + (q + 2) ≤ last + 1 then do
    let (pile1, memo) ← mergeStones_topdown_from stones K 1 first (first + i) memo
    if pile1 = INT32_MAX then split_loop stones K q first last (i + 1) ans memo
    else
      let (pile2, memo) ← mergeStones_topdown_from stones K (q + 1) (first + i + 1) last memo
      if pile2 = INT32_MAX then split_loop stones K q first last (i + 1) ans memo
      else split_loop stones K q first last (i + 1) (min ans (int (pile1 + pile2))) memo
  else some (ans, memo)
termination_by (last - first, 0, last + 1 - (first + i))

end

def mergeStones_topdown (stones : List Int) (K : Nat) : Option Int := do
  let (ans, _) ← mergeStones_topdown_from (partial_sum stones) K K 0 (stones.length - 1)
    fun _ => -1
  return if ans = INT32_MAX then -1 else ans

/-- The loop over `x`. -/
def min_split (memo : Table Int) (i j : Nat) : Int :=
  (List.range' i (j - i)).foldl (fun min_val x => min min_val (int (memo i x + memo (x + 1) j)))
    INT32_MAX

/-- One round of the loop over `i`. -/
def merge_range (stones : List Int) (len : Nat) (memo : Table Int) (i : Nat) :
    Option (Table Int) := do
  let j := i + len
  let total_ij ← total_of stones i j
  return memo.set i j (int (total_ij + min_split memo i j))

/-- The second parameter is not used. -/
def mergeStones2 (stones : List Int) (_ : Nat) : Option Int := do
  let n := stones.length
  let stones := partial_sum stones
  let memo ← (List.range' 1 (n - 1)).foldlM
    (fun memo len => (List.range (n - len)).foldlM (merge_range stones len) memo) (Table.const 0)
  if n = 0 then none else some (memo 0 (n - 1))

/-! What `mergeStones_topdown` remembers: for each range and number of piles, the least of the
costs together with the total of the range. -/

open Merging

section Segments

variable {stones : List Int} {first last k : Nat}

/-- The stones from `first` to `last`. -/
def segment (stones : List Int) (first last : Nat) : List Int :=
  (stones.drop first).take (last + 1 - first)

theorem length_segment (hLast : last < stones.length) :
    (segment stones first last).length = last + 1 - first := by
  rw [segment, List.length_take, List.length_drop]
  omega

theorem segment_self (h : first < stones.length) :
    segment stones first first = [stones[first]] := by
  rw [segment, Nat.add_sub_cancel_left, List.drop_eq_getElem_cons h]
  rfl

theorem segment_all : segment stones 0 (stones.length - 1) = stones := by
  rw [segment, List.drop_zero]
  exact List.take_of_length_le (by omega)

theorem take_append_segment (stones : List Int) (h : first ≤ last) :
    stones.take first ++ segment stones first last = stones.take (last + 1) := by
  rw [segment, ← List.take_add]
  congr 1
  omega

theorem segment_append (stones : List Int) (hk : first ≤ k) (hLast : k < last) :
    segment stones first k ++ segment stones (k + 1) last = segment stones first last := by
  have hFirst := take_append_segment stones (show first ≤ last by omega)
  have hRest := take_append_segment stones (show k + 1 ≤ last by omega)
  rw [← take_append_segment stones hk, List.append_assoc] at hRest
  exact List.append_cancel_left (hRest.trans hFirst.symm)

theorem segment_append_drop (stones : List Int) (h : first ≤ last) :
    stones.take first ++ segment stones first last ++ stones.drop (last + 1) = stones := by
  rw [take_append_segment stones h, List.take_append_drop]

theorem mem_of_mem_segment {x : Int} (hx : x ∈ segment stones first last) : x ∈ stones :=
  List.mem_of_mem_drop (List.mem_of_mem_take hx)

theorem total_of_partial_sum (hHead : ∀ x ∈ stones.head?, int x = x) (h : first ≤ last)
    (hLast : last < stones.length) :
    total_of (partial_sum stones) first last = some (int (segment stones first last).sum) := by
  have hSum := congrArg List.sum (take_append_segment stones h)
  rw [List.sum_append] at hSum
  rw [total_of, getElem?_partial_sum hHead hLast, Option.bind_eq_bind, Option.bind_some]
  by_cases hPos : 0 < first
  · rw [if_pos hPos, getElem?_partial_sum hHead (by omega), Option.bind_some,
      Nat.sub_add_cancel hPos, ← hSum]
    refine congrArg some ((Int.sub_bmod _ _ _).symm.trans ?_)
    rw [add_sub_cancel_left]
    rfl
  · rw [if_neg hPos, Option.bind_some]
    obtain rfl : first = 0 := by omega
    rw [List.take_zero, List.sum_nil, Int.zero_add] at hSum
    show some (int (int _ - 0)) = _
    rw [hSum, Int.sub_zero]
    exact congrArg some Int.bmod_bmod

end Segments

section Values

variable {stones : List Int} {K p q first last k : Nat} {v w : Int}

/-- What `p` piles made of a range may count for: what they have cost, and their total. -/
def Value (stones : List Int) (K p first last : Nat) (w : Int) : Prop :=
  ∃ c, Forest K p c (segment stones first last) ∧ w = c + (segment stones first last).sum

/-- The piles of a range that are merged on. -/
structure Inside (stones : List Int) (p first last : Nat) : Prop where
  pos : 1 ≤ p
  le : first ≤ last
  lt : last < stones.length
  more : p ≠ 1 ∨ last + 1 - first < stones.length

/-- None of these values reaches the mark for what is impossible. -/
def Small (stones : List Int) (K : Nat) : Prop :=
  ∀ p first last w, Inside stones p first last → Value stones K p first last w → w < INT32_MAX

/-- What the recursion returns. -/
structure Result (stones : List Int) (K p first last : Nat) (v : Int) : Prop where
  none : (∀ w, ¬Value stones K p first last w) → v = INT32_MAX
  least : Small stones K → ∀ w, Value stones K p first last w →
    IsLeast {w | Value stones K p first last w} v

theorem Value.nonneg (hPos : ∀ x ∈ stones, 0 < x) (h : Value stones K p first last w) : 0 ≤ w := by
  obtain ⟨c, hForest, rfl⟩ := h
  have hSegment : ∀ x ∈ segment stones first last, 0 ≤ x := fun x hx =>
    (hPos x (mem_of_mem_segment hx)).le
  obtain ⟨q, -, hMerges⟩ := hForest.merges
  exact add_nonneg (hMerges.nonneg hSegment).1 (List.sum_nonneg hSegment)

/-- One pile of a longer range is merged from `K` piles. -/
theorem value_one_iff (hLast : last < stones.length) (hLonger : first < last) :
    Value stones K 1 first last w ↔
      ∃ v, Value stones K K first last v ∧ w = v + (segment stones first last).sum := by
  have hLength : (segment stones first last).length = last + 1 - first := length_segment hLast
  constructor
  · rintro ⟨c, hForest, rfl⟩
    rcases forest_one_iff.mp hForest with ⟨x, hx, -⟩ | ⟨d, hInner, rfl⟩
    · rw [hx, List.length_singleton] at hLength
      omega
    · exact ⟨_, ⟨d, hInner, rfl⟩, rfl⟩
  · rintro ⟨_, ⟨d, hInner, rfl⟩, rfl⟩
    exact ⟨_, forest_one_iff.mpr (Or.inr ⟨d, hInner, rfl⟩), rfl⟩

/-- The first pile ends at some `k`. -/
theorem forest_segment_iff (hK : 2 ≤ K) (hLast : last < stones.length) {c : Int} :
    Forest K (q + 2) c (segment stones first last) ↔
      ∃ k c₁ c₂, first ≤ k ∧ k + (q + 2) ≤ last + 1 ∧ c = c₁ + c₂ ∧
        Forest K 1 c₁ (segment stones first k) ∧
        Forest K (q + 1) c₂ (segment stones (k + 1) last) := by
  constructor
  · intro hForest
    obtain ⟨l₁, l₂, c₁, c₂, hl, rfl, hOne, hOthers⟩ := forest_succ_iff.mp hForest
    have hFirst := hOne.le_length hK le_rfl
    have hRest := hOthers.le_length hK (Nat.succ_pos q)
    have hLength := congrArg List.length hl
    rw [length_segment hLast, List.length_append] at hLength
    obtain ⟨k, hk⟩ : ∃ k, k + 1 = first + l₁.length := ⟨first + l₁.length - 1, by omega⟩
    have hSplit := segment_append stones (show first ≤ k by omega)
      (show k < last by omega)
    rw [hl] at hSplit
    obtain ⟨rfl, rfl⟩ := List.append_inj hSplit (by rw [length_segment (by omega)]; omega)
    exact ⟨k, c₁, c₂, by omega, by omega, rfl, hOne, hOthers⟩
  · rintro ⟨k, c₁, c₂, hk, hEnd, rfl, hOne, hOthers⟩
    rw [← segment_append stones hk (show k < last by omega)]
    exact forest_succ_iff.mpr ⟨_, _, c₁, c₂, rfl, rfl, hOne, hOthers⟩

theorem value_succ_iff (hK : 2 ≤ K) (hLast : last < stones.length) :
    Value stones K (q + 2) first last w ↔ ∃ k w₁ w₂, first ≤ k ∧ k + (q + 2) ≤ last + 1 ∧
      Value stones K 1 first k w₁ ∧ Value stones K (q + 1) (k + 1) last w₂ ∧ w = w₁ + w₂ := by
  have hSum {k : Nat} (hk : first ≤ k) (hEnd : k + (q + 2) ≤ last + 1) :
      (segment stones first last).sum =
        (segment stones first k).sum + (segment stones (k + 1) last).sum := by
    rw [← segment_append stones hk (show k < last by omega), List.sum_append]
  constructor
  · rintro ⟨c, hForest, rfl⟩
    obtain ⟨k, c₁, c₂, hk, hEnd, rfl, hOne, hOthers⟩ := (forest_segment_iff hK hLast).mp hForest
    refine ⟨k, _, _, hk, hEnd, ⟨c₁, hOne, rfl⟩, ⟨c₂, hOthers, rfl⟩, ?_⟩
    rw [hSum hk hEnd]
    omega
  · rintro ⟨k, _, _, hk, hEnd, ⟨c₁, hOne, rfl⟩, ⟨c₂, hOthers, rfl⟩, rfl⟩
    refine ⟨c₁ + c₂, (forest_segment_iff hK hLast).mpr ?_, ?_⟩
    · exact ⟨k, c₁, c₂, hk, hEnd, rfl, hOne, hOthers⟩
    · rw [hSum hk hEnd]
      omega

theorem Result.lt (hInside : Inside stones p first last) (h : Result stones K p first last v)
    (hSmall : Small stones K) (hw : Value stones K p first last w) : v < INT32_MAX :=
  hSmall p first last v hInside (h.least hSmall w hw).1

theorem result_impossible (hNone : ∀ w, ¬Value stones K p first last w) :
    Result stones K p first last INT32_MAX where
  none _ := rfl
  least _ w hw := absurd hw (hNone w)

theorem int_of_small (hLow : 0 ≤ w) (hHigh : w < INT32_MAX) : int w = w := by
  unfold INT32_MAX at hHigh
  exact Int.bmod_eq_of_le (by omega) (by omega)

/-- As many piles as stones. -/
theorem result_stones (hK : 2 ≤ K) (hPos : ∀ x ∈ stones, 0 < x)
    (hInside : Inside stones p first last) (hp : last + 1 - first = p) :
    Result stones K p first last (int (segment stones first last).sum) := by
  have hLength : (segment stones first last).length = p := by rw [length_segment hInside.lt, hp]
  have hValue : Value stones K p first last (segment stones first last).sum := by
    refine ⟨0, ?_, (Int.zero_add _).symm⟩
    have hStones := forest_stones K (segment stones first last)
    rwa [hLength] at hStones
  refine ⟨fun hNone => absurd hValue (hNone _), fun hSmall w hw => ?_⟩
  rw [int_of_small (hValue.nonneg hPos) (hSmall _ _ _ _ hInside hValue)]
  refine ⟨hValue, fun w hw => ?_⟩
  obtain ⟨c, hForest, rfl⟩ := hw
  rw [Forest.eq_zero hK hForest hLength, Int.zero_add]

end Values

section Runs

variable {stones : List Int} {K p q first last k i : Nat} {ans v w : Int} {memo : Memo}

/-- What is remembered was a result. -/
def Remembers (stones : List Int) (K : Nat) (memo : Memo) : Prop :=
  ∀ first last q, 0 ≤ memo (first, last, q) →
    Result stones K (q + 1) first last (memo (first, last, q))

/-- The recursion returns a result, whatever is remembered. -/
def Computes (stones : List Int) (K p first last : Nat) : Prop :=
  ∀ memo, Remembers stones K memo → ∃ v memo',
    mergeStones_topdown_from (partial_sum stones) K p first last memo = some (v, memo') ∧
      Result stones K p first last v ∧ Remembers stones K memo'

theorem Remembers.update (h : Remembers stones K memo)
    (hResult : Result stones K (q + 1) first last v) :
    Remembers stones K (Function.update memo (first, last, q) v) := by
  intro first' last' q' hSome
  by_cases hKey : (first', last', q') = (first, last, q)
  · obtain ⟨rfl, rfl, rfl⟩ := hKey
    rwa [Function.update_self]
  · rw [Function.update_of_ne hKey] at hSome ⊢
    exact h first' last' q' hSome

/-- The least sum over the splits before `first + i`. -/
structure BestSplit (stones : List Int) (K q first last i : Nat) (ans : Int) : Prop where
  none : (∀ w, ¬Value stones K (q + 2) first last w) → ans = INT32_MAX
  found : Small stones K → ans = INT32_MAX ∨ Value stones K (q + 2) first last ans
  least : Small stones K → ∀ k w₁ w₂, first ≤ k → k < first + i → Value stones K 1 first k w₁ →
    Value stones K (q + 1) (k + 1) last w₂ → ans ≤ w₁ + w₂

theorem bestSplit_zero : BestSplit stones K q first last 0 INT32_MAX where
  none _ := rfl
  found _ := Or.inl rfl
  least _ k _ _ hk hk' := absurd hk' (by omega)

/-- A split that is impossible is passed over. -/
theorem BestSplit.skip (h : BestSplit stones K q first last i ans)
    (hNone : Small stones K → ∀ w₁ w₂, Value stones K 1 first (first + i) w₁ →
      ¬Value stones K (q + 1) (first + i + 1) last w₂) :
    BestSplit stones K q first last (i + 1) ans where
  none := h.none
  found := h.found
  least hSmall k w₁ w₂ hk hk' h₁ h₂ := by
    by_cases hLast : k = first + i
    · subst hLast
      exact absurd h₂ (hNone hSmall w₁ w₂ h₁)
    · exact h.least hSmall k w₁ w₂ hk (by omega) h₁ h₂

theorem BestSplit.result (hK : 2 ≤ K) (hInside : Inside stones (q + 2) first last)
    (h : BestSplit stones K q first last i ans) (hDone : ¬first + i + (q + 2) ≤ last + 1) :
    Result stones K (q + 2) first last ans where
  none := h.none
  least hSmall w hw := by
    have hLower : ∀ w, Value stones K (q + 2) first last w → ans ≤ w := fun w hw => by
      obtain ⟨k, w₁, w₂, hk, hEnd, h₁, h₂, rfl⟩ := (value_succ_iff hK hInside.lt).mp hw
      exact h.least hSmall k w₁ w₂ hk (by omega) h₁ h₂
    have hLt : ans < INT32_MAX := (hLower w hw).trans_lt (hSmall _ _ _ _ hInside hw)
    exact ⟨(h.found hSmall).resolve_left hLt.ne, fun w hw => hLower w hw⟩

/-- A split with both results. -/
theorem BestSplit.take (hK : 2 ≤ K) (hPos : ∀ x ∈ stones, 0 < x)
    (hInside : Inside stones (q + 2) first last) (h : BestSplit stones K q first last i ans)
    (hEnd : first + i + (q + 2) ≤ last + 1) {v₁ v₂ : Int}
    (h₁ : Result stones K 1 first (first + i) v₁)
    (h₂ : Result stones K (q + 1) (first + i + 1) last v₂)
    (hSome₁ : v₁ ≠ INT32_MAX) (hSome₂ : v₂ ≠ INT32_MAX) :
    BestSplit stones K q first last (i + 1) (min ans (int (v₁ + v₂))) := by
  obtain ⟨w₁, hw₁⟩ : ∃ w, Value stones K 1 first (first + i) w := by
    by_contra hNone
    exact hSome₁ (h₁.none (not_exists.mp hNone))
  obtain ⟨w₂, hw₂⟩ : ∃ w, Value stones K (q + 1) (first + i + 1) last w := by
    by_contra hNone
    exact hSome₂ (h₂.none (not_exists.mp hNone))
  have hSum : ∀ w₁ w₂, Value stones K 1 first (first + i) w₁ →
      Value stones K (q + 1) (first + i + 1) last w₂ →
      Value stones K (q + 2) first last (w₁ + w₂) := fun w₁ w₂ h₁ h₂ =>
    (value_succ_iff hK hInside.lt).mpr ⟨_, w₁, w₂, Nat.le_add_right _ _, hEnd, h₁, h₂, rfl⟩
  refine ⟨fun hNone => absurd (hSum w₁ w₂ hw₁ hw₂) (hNone _), fun hSmall => ?_,
    fun hSmall k u₁ u₂ hk hk' hu₁ hu₂ => ?_⟩
  all_goals
    have hLeast₁ := h₁.least hSmall w₁ hw₁
    have hLeast₂ := h₂.least hSmall w₂ hw₂
    have hValue := hSum v₁ v₂ hLeast₁.1 hLeast₂.1
    rw [int_of_small (hValue.nonneg hPos) (hSmall _ _ _ _ hInside hValue)]
  · rcases le_total ans (v₁ + v₂) with hLe | hLe
    · rw [min_eq_left hLe]
      exact h.found hSmall
    · rw [min_eq_right hLe]
      exact Or.inr hValue
  · by_cases hLast : k = first + i
    · subst hLast
      exact (min_le_right _ _).trans (add_le_add (hLeast₁.2 hu₁) (hLeast₂.2 hu₂))
    · exact (min_le_left _ _).trans (h.least hSmall k u₁ u₂ hk (by omega) hu₁ hu₂)

/-- What the recursion is called with. It is called with `K` piles for one stone only if there
is no other. -/
structure Called (stones : List Int) (K p first last : Nat) : Prop
    extends Inside stones p first last where
  le_K : p ≤ K
  lt_of_eq : p = K → first < last

theorem split_loop_result (hK : 2 ≤ K) (hPos : ∀ x ∈ stones, 0 < x)
    (hCalled : Called stones K (q + 2) first last)
    (ih : ∀ p f l, Called stones K p f l → l - f < last - first → Computes stones K p f l)
    (hBest : BestSplit stones K q first last i ans) (hMemo : Remembers stones K memo) :
    ∃ v memo', split_loop (partial_sum stones) K q first last i ans memo = some (v, memo') ∧
      Result stones K (q + 2) first last v ∧ Remembers stones K memo' := by
  have hLt := hCalled.lt
  have hLe := hCalled.le_K
  induction hn : last + 1 - (first + i) using Nat.strongRecOn generalizing i ans memo with
  | ind n ihLoop =>
      rw [split_loop]
      split_ifs with hEnd
      · have hFirst : Called stones K 1 first (first + i) :=
          ⟨⟨le_rfl, by omega, by omega, Or.inr (by omega)⟩, by omega, by omega⟩
        have hRest : Called stones K (q + 1) (first + i + 1) last :=
          ⟨⟨by omega, by omega, by omega, Or.inr (by omega)⟩, by omega, by omega⟩
        obtain ⟨v₁, memo₁, hRun₁, hResult₁, hMemo₁⟩ := ih _ _ _ hFirst (by omega) memo hMemo
        rw [hRun₁, Option.bind_eq_bind, Option.bind_some]
        by_cases hNone₁ : v₁ = INT32_MAX
        · simp only [if_pos hNone₁]
          refine ihLoop _ (by omega) (hBest.skip fun hSmall w₁ w₂ h₁ _ => ?_) hMemo₁ rfl
          exact (hResult₁.lt hFirst.toInside hSmall h₁).ne hNone₁
        · simp only [if_neg hNone₁]
          obtain ⟨v₂, memo₂, hRun₂, hResult₂, hMemo₂⟩ := ih _ _ _ hRest (by omega) memo₁ hMemo₁
          rw [hRun₂, Option.bind_some]
          by_cases hNone₂ : v₂ = INT32_MAX
          · simp only [if_pos hNone₂]
            refine ihLoop _ (by omega) (hBest.skip fun hSmall w₁ w₂ _ h₂ => ?_) hMemo₂ rfl
            exact (hResult₂.lt hRest.toInside hSmall h₂).ne hNone₂
          · simp only [if_neg hNone₂]
            exact ihLoop _ (by omega) (hBest.take hK hPos hCalled.toInside hEnd hResult₁ hResult₂
              hNone₁ hNone₂) hMemo₂ rfl
      · exact ⟨ans, memo, rfl, hBest.result hK hCalled.toInside hEnd, hMemo⟩

/-- One pile is merged from `K` piles of the same range. -/
theorem result_pile (hK : 2 ≤ K) (hPos : ∀ x ∈ stones, 0 < x)
    (hCalled : Called stones K 1 first last) (hLonger : first < last)
    (h : Result stones K K first last v) :
    Result stones K 1 first last
      (if v = INT32_MAX then v else int (v + int (segment stones first last).sum)) := by
  have hValue (w : Int) := value_one_iff (K := K) (w := w) hCalled.lt hLonger
  refine ⟨fun hNone => ?_, fun hSmall w hw => ?_⟩
  · have hNoPiles : v = INT32_MAX := h.none fun w hw => hNone _ ((hValue _).mpr ⟨w, hw, rfl⟩)
    rw [if_pos hNoPiles, hNoPiles]
  · obtain ⟨u, hu, -⟩ := (hValue w).mp hw
    have hLeast := h.least hSmall u hu
    have hPiles : Inside stones K first last :=
      ⟨by omega, hCalled.le, hCalled.lt, Or.inl (by omega)⟩
    have hOne := (hValue _).mpr ⟨v, hLeast.1, rfl⟩
    have hOneLt := hSmall _ _ _ _ hCalled.toInside hOne
    have hv := hLeast.1.nonneg hPos
    have hTotal : 0 ≤ (segment stones first last).sum :=
      List.sum_nonneg fun x hx => (hPos x (mem_of_mem_segment hx)).le
    rw [if_neg (h.lt hPiles hSmall hu).ne, int_of_small hTotal (by omega),
      int_of_small (by omega) hOneLt]
    refine ⟨hOne, fun w' hw' => ?_⟩
    obtain ⟨u', hu', rfl⟩ := (hValue w').mp hw'
    exact add_le_add_left (hLeast.2 hu') _

theorem computes_step (hK : 2 ≤ K) (hPos : ∀ x ∈ stones, 0 < x)
    (hHead : ∀ x ∈ stones.head?, int x = x) (hCalled : Called stones K p first last)
    (ih : ∀ p f l, Called stones K p f l → l - f < last - first → Computes stones K p f l)
    (hPile : p = 1 → first < last → Computes stones K K first last) :
    Computes stones K p first last := by
  intro memo hMemo
  have hp := hCalled.pos
  rw [mergeStones_topdown_from, total_of_partial_sum hHead hCalled.le hCalled.lt,
    Option.bind_eq_bind, Option.bind_some]
  dsimp only
  split_ifs with hStone hSingle hFew hAll hKnown hOnce
  · exact ⟨_, _, rfl, result_stones hK hPos hCalled.toInside (by omega), hMemo⟩
  · have hLonger := hCalled.lt_of_eq hSingle.2.symm
    omega
  · refine ⟨_, _, rfl, result_impossible fun w hw => ?_, hMemo⟩
    obtain ⟨c, hForest, -⟩ := hw
    have hLength := hForest.le_length hK hp
    rw [length_segment hCalled.lt] at hLength
    omega
  · exact ⟨_, _, rfl, result_stones hK hPos hCalled.toInside hAll, hMemo⟩
  · have hResult := hMemo first last (p - 1) hKnown
    rw [Nat.sub_add_cancel hp] at hResult
    exact ⟨_, _, rfl, hResult, hMemo⟩
  · omega
  · match p, hCalled, hPile with
    | 1, hCalled, hPile =>
        have hLonger : first < last := by omega
        obtain ⟨v, memo', hRun, hResult, hMemo'⟩ := hPile rfl hLonger memo hMemo
        have hOne := result_pile hK hPos hCalled hLonger hResult
        refine ⟨_, _, ?_, hOne, hMemo'.update hOne⟩
        simp only [hRun, Option.bind_eq_bind, Option.bind_some]
        rfl
    | q + 2, hCalled, _ =>
        obtain ⟨v, memo', hRun, hResult, hMemo'⟩ :=
          split_loop_result hK hPos hCalled ih bestSplit_zero hMemo
        refine ⟨_, _, ?_, hResult, hMemo'.update hResult⟩
        simp only [hRun, Option.bind_eq_bind, Option.bind_some]
        rfl

/-- Every call returns a result. -/
theorem computes (hK : 2 ≤ K) (hPos : ∀ x ∈ stones, 0 < x)
    (hHead : ∀ x ∈ stones.head?, int x = x) (hCalled : Called stones K p first last) :
    Computes stones K p first last := by
  induction hn : last - first using Nat.strongRecOn generalizing p first last with
  | ind n ih =>
      have hSmaller : ∀ p f l, Called stones K p f l → l - f < last - first →
          Computes stones K p f l := fun p f l hCalled hLess => ih _ (hn ▸ hLess) hCalled rfl
      refine computes_step hK hPos hHead hCalled hSmaller fun _ hLonger => ?_
      have hPiles : Called stones K K first last :=
        ⟨⟨by omega, hCalled.le, hCalled.lt, Or.inl (by omega)⟩, le_rfl, fun _ => hLonger⟩
      exact computes_step hK hPos hHead hPiles hSmaller fun hOne => by omega

end Runs
end CppPerf.Arrays
