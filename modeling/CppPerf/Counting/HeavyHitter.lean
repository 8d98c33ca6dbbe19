import CppPerf.Arrays.PartialSum
import CppPerf.Semantics.Cancellation
import CppPerf.Semantics.OrderedMap

/-! `HeavyHitter` of `Random.cpp`, with `erase_remove_if` of `eraseRemove.h` for a map. -/
namespace CppPerf.Counting.HeavyHitter

open Text Arrays Ordered Cancellation

def erase_remove_if (asso : OrderedMap Int Int) (p : Int × Int → Bool) : OrderedMap Int Int :=
  asso.filter fun e => !p e

/-- `maj[n]++`. Reading an entry that does not exist makes it 0. -/
def increment (maj : OrderedMap Int Int) (n : Int) : OrderedMap Int Int :=
  maj.set n (int ((maj.lookup n).getD 0 + 1))

/-- One round of the first loop. -/
def next_candidate (k : Int) (maj : OrderedMap Int Int) (n : Int) : OrderedMap Int Int :=
  if int maj.entries.length < k ∨ (maj.lookup n).isSome then increment maj n
  else (erase_remove_if maj fun p => p.2 = 1).mapValues fun count => int (count - 1)

def candidates (nums : List Int) (k : Int) : OrderedMap Int Int :=
  nums.foldl (next_candidate k) OrderedMap.empty

/-- One round of the second loop. -/
def verify (maj : OrderedMap Int Int) (n : Int) : OrderedMap Int Int :=
  if (maj.lookup n).isSome then increment maj n else maj

/-- The divisor is converted to `size_t`. -/
def majorityElements (nums : List Int) (k : Int) : Option (List Int) :=
  let maj := (candidates nums k).mapValues fun _ => 0
  let maj := nums.foldl verify maj
  let divisor := int (k + 1) % 2 ^ 64
  if divisor = 0 then none
  else
    let threshold := int (nums.length / divisor)
    some ((maj.entries.filter fun p => p.2 > threshold).map Prod.fst)

/-- One round of the loop of `majorityElement`, over `maj` and `count`. -/
def vote (state : Int × Int) (x : Int) : Int × Int :=
  let (maj, count) := state
  if count = 0 then (x, 1)
  else if x = maj then (maj, int (count + 1))
  else (maj, int (count - 1))

/-- An array without a first element is a failure. -/
def majorityElement : List Int → Option Int
  | [] => none
  | first :: rest => some (rest.foldl vote (first, 1)).1

variable {maj : OrderedMap Int Int} {kept : Multiset Int} {n v : Int} {k : Nat}

/-- The map counts the elements of a collection. -/
def Counts (maj : OrderedMap Int Int) (kept : Multiset Int) : Prop :=
  ∀ v, maj.lookup v = if v ∈ kept then some (kept.count v : Int) else none

theorem Counts.start : Counts OrderedMap.empty 0 := fun _ => rfl

theorem Counts.isSome (h : Counts maj kept) (v : Int) :
    (maj.lookup v).isSome = true ↔ v ∈ kept := by
  rw [h v]
  split_ifs with hMem
  · exact iff_of_true rfl hMem
  · exact iff_of_false nofun hMem

theorem Counts.getD (h : Counts maj kept) (v : Int) : (maj.lookup v).getD 0 = kept.count v := by
  rw [h v]
  split_ifs with hMem
  · rfl
  · rw [Multiset.count_eq_zero_of_notMem hMem]
    rfl

/-- There is an entry for each kind of elements. -/
theorem Counts.length (h : Counts maj kept) : maj.entries.length = kept.dedup.card := by
  have hKeys : (maj.entries.map Prod.fst).Nodup :=
    List.pairwise_map.mpr (maj.sorted.imp fun hLt => hLt.ne)
  have hSame : ((maj.entries.map Prod.fst : List Int) : Multiset Int) = kept.dedup := by
    refine (Multiset.Nodup.ext (Multiset.coe_nodup.mpr hKeys) kept.nodup_dedup).mpr fun v => ?_
    rw [Multiset.mem_coe, List.mem_map, Multiset.mem_dedup, ← h.isSome, Option.isSome_iff_exists]
    simp only [OrderedMap.lookup_eq_some_iff]
    constructor
    · rintro ⟨e, he, rfl⟩
      exact ⟨e.2, he⟩
    · rintro ⟨c, hc⟩
      exact ⟨(v, c), hc, rfl⟩
  rw [← hSame, Multiset.coe_card, List.length_map]

theorem Counts.increment (h : Counts maj kept) (hInt : kept.card + 1 < 2 ^ 31) (n : Int) :
    Counts (increment maj n) (n ::ₘ kept) := by
  intro v
  by_cases hv : v = n
  · subst hv
    have hLe := Multiset.count_le_card v kept
    rw [HeavyHitter.increment, OrderedMap.lookup_set_self, h.getD,
      if_pos (Multiset.mem_cons_self v kept), Multiset.count_cons_self,
      int_eq_self (by omega) (by omega)]
    rfl
  · rw [HeavyHitter.increment, OrderedMap.lookup_set_of_ne _ _ hv, h v,
      Multiset.count_cons_of_ne hv]
    exact if_congr (by rw [Multiset.mem_cons, or_iff_right hv]) rfl rfl

/-- Entries of 1 are erased, and then each one that is left has a 1 less. -/
theorem Counts.cancel (h : Counts maj kept) (hInt : kept.card < 2 ^ 31) :
    Counts ((erase_remove_if maj fun p => p.2 = 1).mapValues fun count => int (count - 1))
      (kept - kept.dedup) := by
  intro v
  have hLe := Multiset.count_le_card v kept
  rw [OrderedMap.lookup_mapValues, erase_remove_if, OrderedMap.lookup_filter, h v,
    count_sub_dedup]
  have hMem : v ∈ kept - kept.dedup ↔ 1 < kept.count v := by
    rw [← Multiset.count_pos, count_sub_dedup]
    omega
  by_cases hIn : v ∈ kept
  · have hPos := Multiset.count_pos.mpr hIn
    rw [if_pos hIn]
    by_cases hOne : kept.count v = 1
    · rw [if_neg (mt hMem.mp (by omega)), hOne]
      rfl
    · have hKeep : ((some (kept.count v : Int)).filter fun c => !decide (c = 1)) =
          some (kept.count v : Int) := by
        simp [Option.filter, hOne]
      rw [if_pos (hMem.mpr (by omega)), hKeep, Option.map_some, int_eq_self (by omega) (by omega),
        Int.natCast_pred_of_pos hPos]
  · have hNone : v ∉ kept - kept.dedup := by
      rw [hMem, Multiset.count_eq_zero_of_notMem hIn]
      omega
    rw [if_neg hIn, if_neg hNone]
    rfl

/-- In each round the element is counted, or it is discarded with one of each kind. -/
theorem Counts.next {seen : Multiset Int} (h : Counts maj kept) (hCancels : Cancels k seen kept)
    (hFew : kept.dedup.card ≤ k) (hk : k < 2 ^ 31) (hInt : seen.card + 1 < 2 ^ 31) (n : Int) :
    ∃ kept, Counts (next_candidate k maj n) kept ∧ Cancels k (n ::ₘ seen) kept ∧
      kept.dedup.card ≤ k := by
  have hCard := hCancels.card_le
  have hCond : int maj.entries.length < k ∨ (maj.lookup n).isSome = true ↔
      kept.dedup.card < k ∨ n ∈ kept := by
    rw [h.length, int_eq_self (by omega) (by omega), h.isSome, Nat.cast_lt]
  rw [next_candidate]
  by_cases hRoom : kept.dedup.card < k ∨ n ∈ kept
  · rw [if_pos (hCond.mpr hRoom)]
    refine ⟨n ::ₘ kept, h.increment (by omega) n, .keep n hCancels, ?_⟩
    by_cases hOld : n ∈ kept
    · rwa [Multiset.dedup_cons_of_mem hOld]
    · rw [Multiset.dedup_cons_of_notMem hOld, Multiset.card_cons]
      exact hRoom.resolve_right hOld
  · rw [if_neg (mt hCond.mp hRoom)]
    rw [not_or] at hRoom
    refine ⟨kept - kept.dedup, h.cancel (by omega),
      hCancels.discard_kinds hRoom.2 (by omega), ?_⟩
    have hKinds : (kept - kept.dedup).dedup ≤ kept.dedup := Multiset.le_dedup.mpr
      ⟨(Multiset.dedup_le _).trans (Multiset.sub_le_self _ _), Multiset.nodup_dedup _⟩
    exact (Multiset.card_le_card hKinds).trans hFew

theorem coe_append_singleton (l : List Int) (x : Int) :
    ((l ++ [x] : List Int) : Multiset Int) = x ::ₘ (l : Multiset Int) :=
  Multiset.coe_eq_coe.mpr (List.perm_append_singleton x l)

theorem candidates_append (nums : List Int) (n k : Int) :
    candidates (nums ++ [n]) k = next_candidate k (candidates nums k) n := by
  rw [candidates, candidates, List.foldl_append, List.foldl_cons, List.foldl_nil]

/-- The candidates are what is left when groups of `k + 1` different elements are discarded. -/
theorem candidates_spec (hk : k < 2 ^ 31) (nums : List Int) (hLength : nums.length < 2 ^ 31) :
    ∃ kept : Multiset Int, Counts (candidates nums k) kept ∧ Cancels k nums kept ∧
      kept.dedup.card ≤ k := by
  induction nums using List.reverseRecOn with
  | nil => exact ⟨0, .start, .start, Nat.zero_le k⟩
  | append_singleton nums n ih =>
      rw [List.length_append, List.length_singleton] at hLength
      obtain ⟨kept, hCounts, hCancels, hFew⟩ := ih (by omega)
      rw [candidates_append, coe_append_singleton]
      have hCard : (nums : Multiset Int).card + 1 < 2 ^ 31 := by
        rw [Multiset.coe_card]
        exact hLength
      exact hCounts.next hCancels hFew hk hCard n

/-- The second loop counts the candidates anew. -/
theorem verify_spec (h : ∀ v, maj.lookup v = if v ∈ kept then some 0 else none)
    (nums : List Int) (v : Int) :
    (nums.foldl verify maj).lookup v = if v ∈ kept then some (int (nums.count v)) else none := by
  induction nums using List.reverseRecOn generalizing v with
  | nil =>
      rw [List.foldl_nil, h v, List.count_nil]
      rfl
  | append_singleton nums n ih =>
      have hIsSome : ((nums.foldl verify maj).lookup n).isSome = true ↔ n ∈ kept := by
        rw [ih n]
        split_ifs with hMem
        · exact iff_of_true rfl hMem
        · exact iff_of_false nofun hMem
      rw [List.foldl_append, List.foldl_cons, List.foldl_nil, verify, List.count_append]
      by_cases hn : n ∈ kept
      · rw [if_pos (hIsSome.mpr hn), HeavyHitter.increment]
        by_cases hv : v = n
        · subst hv
          rw [OrderedMap.lookup_set_self, ih v, if_pos hn, if_pos hn, Option.getD_some,
            int_int_add, List.count_singleton_self, Nat.cast_add]
          rfl
        · rw [OrderedMap.lookup_set_of_ne _ _ hv, ih v, List.count_eq_zero_of_not_mem (l := [n])
            (mt List.mem_singleton.mp hv), Nat.add_zero]
      · rw [if_neg (mt hIsSome.mp hn), ih v]
        split_ifs with hv
        · have hNe : n ≠ v := by
            rintro rfl
            exact hn hv
          rw [List.count_eq_zero_of_not_mem (l := [n]) (mt List.mem_singleton.mp hNe.symm),
            Nat.add_zero]
        · rfl

/-- Where the divisor is no `int`, the quotient is 0 all the same. -/
theorem threshold_eq {length : Nat} (hLength : length < 2 ^ 31) (hk : 1 ≤ k) (hInt : k < 2 ^ 31) :
    int ((k : Int) + 1) % 2 ^ 64 ≠ 0 ∧
      int (length / (int ((k : Int) + 1) % 2 ^ 64)) = (length / (k + 1) : Nat) := by
  have hQuotient : length / (k + 1) ≤ length := Nat.div_le_self _ _
  rcases Nat.lt_or_eq_of_le (Nat.le_of_lt_succ hInt) with hSmall | hLast
  · have hDivisor : int ((k : Int) + 1) % 2 ^ 64 = (k + 1 : Nat) := by
      rw [int_eq_self (by omega) (by omega), Int.emod_eq_of_lt (by omega) (by omega)]
      rfl
    rw [hDivisor, ← Int.natCast_ediv]
    generalize length / (k + 1) = q at hQuotient
    exact ⟨by omega, int_eq_self (by omega) (by omega)⟩
  · have hDivisor : int ((k : Int) + 1) % 2 ^ 64 = 18446744071562067968 := by
      rw [hLast]
      decide
    have hNone : length / (k + 1) = 0 := Nat.div_eq_of_lt (by omega)
    rw [hDivisor, hNone, Int.ediv_eq_zero_of_lt (by omega) (by omega)]
    exact ⟨by decide, rfl⟩

/-- The answers are in increasing order, and they are the frequent elements. -/
theorem majorityElements_spec (hk : 1 ≤ k) (hInt : k < 2 ^ 31) (nums : List Int)
    (hLength : nums.length < 2 ^ 31) :
    ∃ ans, majorityElements nums k = some ans ∧ ans.Pairwise (· < ·) ∧
      ∀ v, v ∈ ans ↔ nums.length < nums.count v * (k + 1) := by
  obtain ⟨hDivisor, hThreshold⟩ := threshold_eq hLength hk hInt
  obtain ⟨kept, hCounts, hCancels, -⟩ := candidates_spec hInt nums hLength
  have hZero : ∀ v, ((candidates nums k).mapValues fun _ => 0).lookup v =
      if v ∈ kept then some 0 else none := by
    intro v
    rw [OrderedMap.lookup_mapValues, hCounts v]
    split_ifs
    · rfl
    · rfl
  have hVerified := verify_spec hZero nums
  refine ⟨_, by rw [majorityElements]; exact if_neg hDivisor, ?_, fun v => ?_⟩
  · exact List.pairwise_map.mpr ((OrderedMap.sorted _).filter _)
  · have hLe := nums.count_le_length (a := v)
    have hCount : int (nums.count v) = nums.count v := int_eq_self (by omega) (by omega)
    have hLookup := hVerified v
    rw [hCount] at hLookup
    rw [hThreshold, ← Nat.div_lt_iff_lt_mul (Nat.succ_pos k), List.mem_map]
    constructor
    · rintro ⟨⟨w, c⟩, hMem, rfl⟩
      obtain ⟨hEntry, hAbove⟩ := List.mem_filter.mp hMem
      rw [(OrderedMap.lookup_eq_some_iff _).mpr hEntry] at hLookup
      split_ifs at hLookup
      rw [decide_eq_true_eq, Option.some.inj hLookup] at hAbove
      exact Nat.cast_lt.mp hAbove
    · intro hAbove
      have hKept : v ∈ kept := hCancels.mem_of_frequent (by
        rw [Multiset.coe_card, Multiset.coe_count, ← Nat.div_lt_iff_lt_mul (Nat.succ_pos k)]
        exact hAbove)
      rw [if_pos hKept, OrderedMap.lookup_eq_some_iff] at hLookup
      exact ⟨_, List.mem_filter.mpr ⟨hLookup, decide_eq_true (Nat.cast_lt.mpr hAbove)⟩, rfl⟩

/-- With pairs of two different elements the one that is kept is the one of the counter. -/
theorem vote_spec (first : Int) (rest : List Int) (hLength : rest.length + 1 < 2 ^ 31) :
    ∃ (maj : Int) (count : Nat), rest.foldl vote (first, 1) = (maj, (count : Int)) ∧
      Cancels 1 ((first :: rest : List Int) : Multiset Int) (Multiset.replicate count maj) := by
  induction rest using List.reverseRecOn with
  | nil => exact ⟨first, 1, rfl, .keep first .start⟩
  | append_singleton rest x ih =>
      rw [List.length_append, List.length_singleton] at hLength
      obtain ⟨maj, count, hRun, hCancels⟩ := ih (by omega)
      have hCard := hCancels.card_le
      rw [Multiset.card_replicate, Multiset.coe_card, List.length_cons] at hCard
      rw [List.foldl_append, List.foldl_cons, List.foldl_nil, hRun, ← List.cons_append,
        coe_append_singleton]
      rcases Nat.eq_zero_or_pos count with rfl | hPos
      · exact ⟨x, 1, by rw [vote]; exact if_pos rfl, .keep x hCancels⟩
      · obtain ⟨c, rfl⟩ := Nat.exists_eq_add_of_le' hPos
        by_cases hSame : x = maj
        · subst hSame
          refine ⟨x, c + 1 + 1, ?_, .keep x hCancels⟩
          rw [vote, if_neg (by omega), if_pos rfl, int_eq_self (by omega) (by omega)]
          rfl
        · have hPair : (x ::ₘ maj ::ₘ 0).Nodup := by simpa using hSame
          refine ⟨maj, c, ?_, .discard hPair rfl ?_⟩
          · rw [vote, if_neg (by omega), if_neg hSame, int_eq_self (by omega) (by omega),
              Nat.cast_add, Nat.cast_one, Int.add_sub_cancel]
          · rw [Multiset.cons_add, Multiset.cons_add, Multiset.zero_add,
              ← Multiset.replicate_succ]
            exact .keep x hCancels

theorem majorityElement_spec (nums : List Int) (hLength : nums.length < 2 ^ 31)
    (hFrequent : nums.length < 2 * nums.count v) : majorityElement nums = some v := by
  cases nums with
  | nil => exact absurd hFrequent (Nat.not_lt_zero _)
  | cons first rest =>
      obtain ⟨maj, count, hRun, hCancels⟩ := vote_spec first rest hLength
      have hKept := hCancels.mem_of_frequent (v := v) (by
        rw [Multiset.coe_card, Multiset.coe_count, Nat.mul_comm]
        exact hFrequent)
      rw [majorityElement, hRun, Multiset.eq_of_mem_replicate hKept]

/-- Never more than `k` counters, the frequent elements in increasing order, and the one that
makes up more than a half. -/
theorem heavyHitter_spec (nums : List Int) (k : Int) (hk : 1 ≤ k) (hInt : k < 2 ^ 31)
    (hLength : nums.length < 2 ^ 31) :
    (∀ i, ((candidates (nums.take i) k).entries.length : Int) ≤ k) ∧
      (∃ ans, majorityElements nums k = some ans ∧ ans.Pairwise (· < ·) ∧
        ∀ v, v ∈ ans ↔ (nums.length : Int) < nums.count v * (k + 1)) ∧
      ∀ v, nums.length < 2 * nums.count v → majorityElement nums = some v := by
  obtain ⟨k, rfl⟩ := Int.eq_ofNat_of_zero_le (show 0 ≤ k by omega)
  refine ⟨fun i => ?_, ?_, fun v => majorityElement_spec nums hLength⟩
  · have hTake : (nums.take i).length < 2 ^ 31 :=
      (List.length_take_le' i nums).trans_lt hLength
    obtain ⟨kept, hCounts, -, hFew⟩ := candidates_spec (Nat.cast_lt.mp hInt) _ hTake
    rw [hCounts.length]
    exact Nat.cast_le.mpr hFew
  · obtain ⟨ans, hRun, hSorted, hMem⟩ :=
      majorityElements_spec (Nat.cast_le.mp hk) (Nat.cast_lt.mp hInt) nums hLength
    refine ⟨ans, hRun, hSorted, fun v => (hMem v).trans ?_⟩
    have hProduct : ((nums.count v * (k + 1) : Nat) : Int) = nums.count v * ((k : Int) + 1) := by
      rw [Nat.cast_mul, Nat.cast_add, Nat.cast_one]
    rw [← hProduct, Nat.cast_lt]

theorem heavyHitter_spec_eight : ∃ ans, majorityElements [1, 1, 1, 3, 3, 2, 2, 2] 2 = some ans ∧
    ans.Pairwise (· < ·) ∧ ∀ v, v ∈ ans ↔
      ((8 : Nat) : Int) < ([1, 1, 1, 3, 3, 2, 2, 2] : List Int).count v * (2 + 1) :=
  (heavyHitter_spec [1, 1, 1, 3, 3, 2, 2, 2] 2 (by decide) (by decide) (by decide)).2.1

section OneValue

/-- Loops that only count one value. -/
theorem count_one_value {loop : OrderedMap Int Int → Int → OrderedMap Int Int} {x : Int}
    (hLoop : ∀ maj c, maj.entries = [(x, c)] → (loop maj x).entries = [(x, int (c + 1))])
    (n : Nat) {c : Int} (h : maj.entries = [(x, int c)]) :
    ((List.replicate n x).foldl loop maj).entries = [(x, int (c + n))] := by
  induction n with
  | zero =>
      rw [List.replicate_zero, List.foldl_nil, h, Nat.cast_zero, Int.add_zero]
  | succ n ih =>
      rw [List.replicate_succ', List.foldl_append, List.foldl_cons, List.foldl_nil,
        hLoop _ _ ih, int_int_add, Nat.cast_add, Nat.cast_one, Int.add_assoc]

theorem increment_one_value {x c : Int} (h : maj.entries = [(x, c)]) :
    (maj.lookup x).isSome = true ∧ (increment maj x).entries = [(x, int (c + 1))] := by
  have hLookup : maj.lookup x = some c := maj.lookup_eq_some_iff.mpr (by rw [h]; simp)
  refine ⟨by rw [hLookup]; rfl, ?_⟩
  rw [increment, hLookup]
  show OrderedMap.insertEntry x (int (c + 1)) maj.entries = _
  rw [h]
  simp [OrderedMap.insertEntry]

/-- The counter of `2 ^ 31` equal elements is no `int`. -/
theorem majorityElements_misses (x : Int) {n : Nat} (hn : n = 2 ^ 31) :
    majorityElements (List.replicate n x) 1 = some [] := by
  obtain ⟨m, rfl⟩ : ∃ m, n = m + 1 := ⟨2 ^ 31 - 1, by omega⟩
  have hFirst : (candidates (List.replicate (m + 1) x) 1).entries = [(x, int (1 + m))] := by
    rw [candidates, List.replicate_succ, List.foldl_cons]
    refine count_one_value (fun maj c h => ?_) m rfl
    obtain ⟨hIsSome, hEntries⟩ := increment_one_value h
    rw [next_candidate, if_pos (Or.inr hIsSome), hEntries]
  have hZero : ((candidates (List.replicate (m + 1) x) 1).mapValues fun _ => 0).entries =
      [(x, int 0)] := by
    have hNothing : int 0 = 0 := by decide
    rw [hNothing]
    exact congrArg (List.map fun e => (e.1, (0 : Int))) hFirst
  have hSecond : ((List.replicate (m + 1) x).foldl verify
      ((candidates (List.replicate (m + 1) x) 1).mapValues fun _ => 0)).entries =
        [(x, int (0 + (m + 1 : Nat)))] := by
    refine count_one_value (fun maj c h => ?_) (m + 1) hZero
    obtain ⟨hIsSome, hEntries⟩ := increment_one_value h
    rw [verify, if_pos hIsSome, hEntries]
  have hDivisor : int (1 + 1) % 2 ^ 64 = 2 := by decide
  have hThreshold : int (((m + 1 : Nat) : Int) / 2) = 1073741824 := by
    rw [hn]
    decide
  have hOver : int (0 + ((m + 1 : Nat) : Int)) = -2147483648 := by
    rw [hn]
    decide
  rw [hOver] at hSecond
  rw [majorityElements]
  simp only [hDivisor, List.length_replicate, hThreshold, hSecond]
  rfl

theorem not_heavyHitter_spec : ¬∀ (nums : List Int) (k : Int),
    (∀ x ∈ nums, -2 ^ 31 ≤ x ∧ x < 2 ^ 31) → 1 ≤ k → k < 2 ^ 31 →
    (∀ i, ((candidates (nums.take i) k).entries.length : Int) ≤ k) ∧
      (∃ ans, majorityElements nums k = some ans ∧ ans.Pairwise (· < ·) ∧
        ∀ v, v ∈ ans ↔ (nums.length : Int) < nums.count v * (k + 1)) ∧
      ∀ v, nums.length < 2 * nums.count v → majorityElement nums = some v := by
  intro hAll
  obtain ⟨n, hn⟩ : ∃ n, n = 2 ^ 31 := ⟨_, rfl⟩
  obtain ⟨-, ⟨ans, hRun, -, hMem⟩, -⟩ := hAll (List.replicate n 7) 1 (fun x hx => by
    rw [List.eq_of_mem_replicate hx]
    decide) (by decide) (by decide)
  rw [majorityElements_misses 7 hn, Option.some.injEq] at hRun
  have hFrequent := (hMem 7).mpr (by
    rw [List.length_replicate, List.count_replicate_self]
    omega)
  rw [← hRun] at hFrequent
  exact absurd hFrequent List.not_mem_nil

end OneValue

end CppPerf.Counting.HeavyHitter
