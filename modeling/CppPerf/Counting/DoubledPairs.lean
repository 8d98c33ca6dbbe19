import CppPerf.Semantics.OrderedMap
import CppPerf.Semantics.Pairing
import Mathlib.Algebra.Order.Ring.Int

/-! Arrays of doubled pairs, from `BinarySearch.cpp`. A number whose double is asked for is
below `2 ^ 30`, so that the double is an `int`. -/
namespace CppPerf.Counting.DoubledPairs

open Ordered

/-- `++` on an `int`, which is undefined for the greatest one. -/
def increment (n : Int) : Option Int := if n < 2 ^ 31 - 1 then some (n + 1) else none

/-- `count[a]++` for the elements of an array. -/
def count_all : List Int → OrderedMap Int Int → Option (OrderedMap Int Int)
  | [], count => some count
  | a :: A, count => do
      let n ← increment ((count.lookup a).getD 0)
      count_all A (count.set a n)

/-- The loop over the entries of the map, whose keys do not change. -/
def match_pairs : (keys : List Int) → OrderedMap Int Int → Option Bool
  | [], _ => some true
  | first :: keys, count => do
      let second ← count.lookup first
      if first = 0 then
        if second.tmod 2 ≠ 0 then return false
        match_pairs keys count
      else if second > 0 then
        let target := if first > 0 then 2 * first else first.tdiv 2
        match count.lowerBound target with
        | none => return false
        | some found =>
            if found.1 ≠ target ∨ found.2 < second then return false
            match_pairs keys (count.set found.1 (found.2 - second))
      else match_pairs keys count

def canReorderDoubled (A : List Int) : Option Bool := do
  let count ← count_all A OrderedMap.empty
  match_pairs (count.entries.map Prod.fst) count

/-! When the pairs that are found are pairs of a number and its double. -/

open Pairing

variable {A keys : List Int} {count m : OrderedMap Int Int} {k v x : Int} {n : Nat}

/-- The number that a number is matched with. A negative one is divided by two. -/
def partner (x : Int) : Int := if 0 ≤ x then 2 * x else x.tdiv 2

theorem tdiv_two (hx : x < 0) : x.tdiv 2 = -(-x / 2) := by
  rw [← Int.neg_neg x, Int.neg_tdiv, Int.tdiv_eq_ediv_of_nonneg (by omega), Int.neg_neg]

theorem lt_partner (hx : x ≠ 0) : x < partner x := by
  rw [partner]
  split_ifs with hNonneg
  · omega
  · rw [tdiv_two (by omega)]
    omega

theorem le_partner (x : Int) : x ≤ partner x := by
  rcases eq_or_ne x 0 with rfl | hx
  · decide
  · exact (lt_partner hx).le

section Loop

/-- What is left to be matched. -/
def remaining (keys : List Int) (count : OrderedMap Int Int) (v : Int) : Nat :=
  if v ∈ keys then ((count.lookup v).getD 0).toNat else 0

/-- The entries that are left are behind those that have been matched. -/
structure Left (keys : List Int) (count : OrderedMap Int Int) : Prop where
  sorted : keys.Pairwise (· < ·)
  entry : ∀ k ∈ keys, ∃ n : Nat, count.lookup k = some (n : Int)
  behind : ∀ k n, count.lookup k = some n → k ∈ keys ∨ ∀ k' ∈ keys, k < k'

theorem Left.tail (h : Left (k :: keys) count) : Left keys count := by
  obtain ⟨hFirst, hRest⟩ := List.pairwise_cons.mp h.sorted
  refine ⟨hRest, fun k' hk' => h.entry k' (List.mem_cons_of_mem k hk'), fun k' n hk' => ?_⟩
  rcases h.behind k' n hk' with hMem | hLt
  · rcases List.mem_cons.mp hMem with rfl | hMem
    · exact Or.inr hFirst
    · exact Or.inl hMem
  · exact Or.inr fun k'' hk'' => hLt k'' (List.mem_cons_of_mem k hk'')

theorem Left.set {t : Int} (h : Left keys count) (hMem : t ∈ keys) (n : Nat) :
    Left keys (count.set t n) := by
  refine ⟨h.sorted, fun k hk => ?_, fun k n' hk => ?_⟩
  · by_cases hSame : k = t
    · exact ⟨n, by rw [hSame, OrderedMap.lookup_set_self]⟩
    · rw [OrderedMap.lookup_set_of_ne _ _ hSame]
      exact h.entry k hk
  · by_cases hSame : k = t
    · exact Or.inl (hSame ▸ hMem)
    · rw [OrderedMap.lookup_set_of_ne _ _ hSame] at hk
      exact h.behind k n' hk

theorem le_of_remaining (h : Left (k :: keys) count) (v : Int)
    (hv : remaining (k :: keys) count v ≠ 0) : k ≤ v := by
  rw [remaining] at hv
  split_ifs at hv with hMem
  · rcases List.mem_cons.mp hMem with rfl | hMem
    · exact le_rfl
    · exact (List.rel_of_pairwise_cons h.sorted hMem).le
  · exact absurd rfl hv

theorem remaining_self (hk : count.lookup k = some (n : Int)) :
    remaining (k :: keys) count k = n := by
  rw [remaining, if_pos (by simp), hk]
  simp

theorem remaining_of_ne (hNe : v ≠ k) : remaining (k :: keys) count v = remaining keys count v := by
  rw [remaining, remaining]
  simp [hNe]

theorem remaining_tail (h : Left (k :: keys) count) :
    remaining keys count = fun v => if v = k then 0 else remaining (k :: keys) count v := by
  funext v
  split_ifs with hSame
  · rw [remaining, if_neg]
    intro hMem
    exact absurd (List.rel_of_pairwise_cons h.sorted hMem) (hSame ▸ lt_irrefl v)
  · exact (remaining_of_ne hSame).symm

/-- The lower bound of a key is its entry if there is one. -/
theorem lowerBound_cases (m : OrderedMap Int Int) (t : Int) :
    (m.lookup t = none ∧ ∀ found, m.lowerBound t = some found → found.1 ≠ t) ∨
      ∃ n, m.lookup t = some n ∧ m.lowerBound t = some (t, n) := by
  cases hLookup : m.lookup t with
  | none =>
      refine Or.inl ⟨rfl, fun found hFound hKey => ?_⟩
      have hMem := (m.lowerBound_eq_some hFound).1
      exact m.lookup_eq_none_iff.mp hLookup found.2 (hKey ▸ hMem)
  | some n =>
      have hMem := m.lookup_eq_some_iff.mp hLookup
      refine Or.inr ⟨n, rfl, ?_⟩
      cases hFound : m.lowerBound t with
      | none => exact absurd (m.lowerBound_eq_none hFound _ hMem) (lt_irrefl t)
      | some found =>
          obtain ⟨-, hLe, hLeast⟩ := m.lowerBound_eq_some hFound
          rcases hLeast _ hMem le_rfl with hSame | hLt
          · rw [hSame]
          · exact absurd hLt hLe.not_gt

/-- What is left after a number has been matched with its partner. -/
theorem remaining_set {t : Int} {c : Nat} (h : Left (k :: keys) count) (hMem : t ∈ keys)
    (ht : count.lookup t = some (c : Int)) (hLe : n ≤ c) :
    remaining keys (count.set t ((c - n : Nat) : Int)) = fun v =>
      if v = k then 0 else if v = t then remaining (k :: keys) count v - n
        else remaining (k :: keys) count v := by
  funext v
  split_ifs with hSame hTarget
  · rw [remaining, if_neg]
    intro hMem
    exact absurd (List.rel_of_pairwise_cons h.sorted hMem) (hSame ▸ lt_irrefl v)
  · rw [remaining_of_ne hSame, hTarget, remaining, remaining, if_pos hMem, if_pos hMem,
      OrderedMap.lookup_set_self, ht, Option.getD_some, Option.getD_some]
    omega
  · rw [remaining_of_ne hSame, remaining, remaining, OrderedMap.lookup_set_of_ne _ _ hTarget]

theorem remaining_partner (h : Left (k :: keys) count) (hk : k ≠ 0) :
    remaining (k :: keys) count (partner k) = ((count.lookup (partner k)).getD 0).toNat := by
  rw [remaining]
  split_ifs with hMem
  · rfl
  · cases hLookup : count.lookup (partner k) with
    | none => rfl
    | some n =>
        rcases h.behind _ _ hLookup with hIn | hBelow
        · exact absurd hIn hMem
        · exact absurd (hBelow k (by simp)) (lt_partner hk).not_gt

/-- The loop over the keys answers whether what is left can be paired. -/
def Decides (keys : List Int) (count : OrderedMap Int Int) : Prop :=
  ∃ b, match_pairs keys count = some b ∧
    (b = true ↔ ∃ xs, IsPairing partner xs (remaining keys count))

/-- A zero is paired with another zero. -/
theorem decides_zero (h : Left (0 :: keys) count) (hRest : Decides keys count) :
    Decides (0 :: keys) count := by
  obtain ⟨n, hn⟩ := h.entry 0 (by simp)
  have hSelf : remaining (0 :: keys) count 0 = n := remaining_self hn
  have hMin := le_of_remaining h
  have hMod : (n : Int).tmod 2 = n % 2 := Int.tmod_eq_emod_of_nonneg (by omega)
  rw [Decides, match_pairs, hn]
  simp only [Option.bind_eq_bind, Option.bind_some, if_true]
  rw [exists_isPairing_iff_of_fixed le_partner hMin rfl, ← remaining_tail h, hSelf, hMod]
  split_ifs with hOdd
  · exact ⟨false, rfl, iff_of_false (by simp) fun hEven => hOdd (by omega)⟩
  · obtain ⟨b, hRun, hIff⟩ := hRest
    refine ⟨b, hRun, hIff.trans (and_iff_right ?_).symm⟩
    omega

theorem mem_of_lookup_partner (h : Left (k :: keys) count) (hk : k ≠ 0) {v : Int}
    (hLookup : count.lookup (partner k) = some v) : partner k ∈ keys := by
  rcases h.behind _ _ hLookup with hIn | hBelow
  · exact (List.mem_cons.mp hIn).resolve_left (lt_partner hk).ne'
  · exact absurd (hBelow k (by simp)) (lt_partner hk).not_gt

/-- Another number has to be paired with its partner, all of what is left of it. -/
theorem decides_partner (h : Left (k :: keys) count) (hk : k ≠ 0)
    (hRest : ∀ count, Left keys count → Decides keys count) : Decides (k :: keys) count := by
  obtain ⟨n, hn⟩ := h.entry k (by simp)
  have hSelf : remaining (k :: keys) count k = n := remaining_self hn
  have hMin := le_of_remaining h
  have hPartner : (if k > 0 then 2 * k else k.tdiv 2) = partner k := by
    rw [partner]
    split_ifs <;> omega
  rw [Decides, match_pairs, hn]
  simp only [Option.bind_eq_bind, Option.bind_some]
  rw [if_neg hk, hPartner, exists_isPairing_iff le_partner hMin (lt_partner hk), hSelf,
    remaining_partner h hk]
  split_ifs with hPos
  · rcases lowerBound_cases count (partner k) with ⟨hNone, hOther⟩ | ⟨c, hLookup, hFound⟩
    · refine ⟨false, ?_, iff_of_false (by simp) fun hLe => ?_⟩
      · cases hFound : count.lowerBound (partner k) with
        | none => rfl
        | some found => exact if_pos (Or.inl (hOther found hFound))
      · rw [hNone] at hLe
        simp only [Option.getD_none, Int.toNat_zero] at hLe
        omega
    · have hMem := mem_of_lookup_partner h hk hLookup
      obtain ⟨d, hd⟩ := h.tail.entry _ hMem
      obtain rfl : c = d := Option.some.inj (hLookup.symm.trans hd)
      rw [hFound, hLookup, Option.getD_some, Int.toNat_natCast]
      by_cases hShort : d < n
      · refine ⟨false, if_pos (Or.inr (by simpa using hShort)), iff_of_false (by simp) ?_⟩
        rintro ⟨hLe, -⟩
        omega
      · have hLe : n ≤ d := Nat.le_of_not_lt hShort
        rw [← remaining_set h hMem hLookup hLe]
        obtain ⟨b, hRun, hIff⟩ := hRest _ (h.tail.set hMem (d - n))
        refine ⟨b, ?_, hIff.trans (and_iff_right hLe).symm⟩
        have hSub : (d : Int) - n = ((d - n : Nat) : Int) := by omega
        simp only [ne_eq, not_true_eq_false, false_or, Nat.cast_lt, hShort, if_false, hSub]
        exact hRun
  · obtain rfl : n = 0 := by omega
    obtain ⟨b, hRun, hIff⟩ := hRest _ h.tail
    refine ⟨b, hRun, hIff.trans ?_⟩
    rw [and_iff_right (Nat.zero_le _), remaining_tail h]
    simp

theorem match_pairs_spec (h : Left keys count) : Decides keys count := by
  induction keys generalizing count with
  | nil =>
      refine ⟨true, rfl, iff_of_true rfl ⟨[], fun v => ?_⟩⟩
      simp [remaining, tally]
  | cons first keys ih =>
      by_cases hZero : first = 0
      · subst hZero
        exact decides_zero h (ih h.tail)
      · exact decides_partner h hZero fun _ hLeft => ih hLeft

end Loop
section Count

variable {p : List Int}

/-- The map holds how often each number of the list occurs. -/
def Counts (p : List Int) (m : OrderedMap Int Int) : Prop :=
  ∀ v, m.lookup v = if v ∈ p then some (p.count v : Int) else none

theorem Counts.getD_eq (h : Counts p m) (v : Int) : (m.lookup v).getD 0 = p.count v := by
  rw [h v]
  split_ifs with hMem
  · rfl
  · rw [List.count_eq_zero.mpr hMem]
    rfl

theorem Counts.set (h : Counts p m) (a : Int) :
    Counts (p ++ [a]) (m.set a (p.count a + 1)) := by
  intro v
  by_cases hSame : v = a
  · rw [hSame, OrderedMap.lookup_set_self, if_pos (by simp), List.count_append,
      List.count_singleton_self]
    rfl
  · have hCount : (p ++ [a]).count v = p.count v := by
      simp [List.count_append, Ne.symm hSame]
    rw [OrderedMap.lookup_set_of_ne _ _ hSame, h v, hCount]
    simp [hSame]

theorem count_all_spec (h : Counts p m) (hSmall : ∀ v, p.count v < 2 ^ 31) :
    ((∀ v, (p ++ A).count v < 2 ^ 31) → ∃ m', count_all A m = some m' ∧ Counts (p ++ A) m') ∧
      ((∃ v, 2 ^ 31 ≤ (p ++ A).count v) → count_all A m = none) := by
  induction A generalizing p m with
  | nil =>
      rw [List.append_nil]
      refine ⟨fun _ => ⟨m, rfl, h⟩, fun hLarge => ?_⟩
      obtain ⟨v, hv⟩ := hLarge
      exact absurd (hSmall v) (Nat.not_lt.mpr hv)
  | cons a A ih =>
      rw [count_all, h.getD_eq, increment, List.append_cons]
      split_ifs with hFits
      · have hSmall' : ∀ v, (p ++ [a]).count v < 2 ^ 31 := by
          intro v
          have hOld := hSmall v
          rw [List.count_append, List.count_singleton]
          split_ifs with hSame
          · rw [← beq_iff_eq.mp hSame]
            omega
          · omega
        exact ih (h.set a) hSmall'
      · refine ⟨fun hAll => ?_, fun _ => rfl⟩
        have hCount := hAll a
        rw [List.count_append, List.count_append, List.count_singleton_self] at hCount
        omega

theorem left_entries (m : OrderedMap Int Int) (h : Counts p m) :
    Left (m.entries.map Prod.fst) m := by
  refine ⟨List.pairwise_map.mpr m.sorted, fun k hk => ?_, fun k n hk => ?_⟩
  · obtain ⟨e, he, rfl⟩ := List.mem_map.mp hk
    have hLookup := m.lookup_eq_some_iff.mpr he
    rw [h e.1] at hLookup
    split_ifs at hLookup with hMem
    exact ⟨p.count e.1, by rw [h e.1, if_pos hMem]⟩
  · exact Or.inl (List.mem_map.mpr ⟨_, m.lookup_eq_some_iff.mp hk, rfl⟩)

theorem remaining_entries (h : Counts p m) :
    remaining (m.entries.map Prod.fst) m = fun v => p.count v := by
  funext v
  rw [remaining, h.getD_eq, Int.toNat_natCast]
  split_ifs with hMem
  · rfl
  · symm
    rw [List.count_eq_zero]
    intro hIn
    have hLookup := h v
    rw [if_pos hIn] at hLookup
    exact hMem (List.mem_map.mpr ⟨_, m.lookup_eq_some_iff.mp hLookup, rfl⟩)

/-- The result is defined if no number is counted beyond the range of `int`. -/
theorem canReorderDoubled_eq (A : List Int) :
    ((∀ v, A.count v < 2 ^ 31) → ∃ b, canReorderDoubled A = some b ∧
      (b = true ↔ ∃ xs : List Int, A.Perm (xs.flatMap fun x => [x, partner x]))) ∧
      ((∃ v, 2 ^ 31 ≤ A.count v) → canReorderDoubled A = none) := by
  have hStart : Counts [] OrderedMap.empty := fun v => by
    rw [if_neg List.not_mem_nil]
    rfl
  obtain ⟨hFits, hLarge⟩ := count_all_spec (A := A) hStart (by simp)
  rw [List.nil_append] at hFits hLarge
  constructor
  · intro hAll
    obtain ⟨m, hCount, hCounts⟩ := hFits hAll
    obtain ⟨b, hRun, hIff⟩ := match_pairs_spec (left_entries m hCounts)
    refine ⟨b, by rw [canReorderDoubled, hCount]; exact hRun, hIff.trans ?_⟩
    rw [remaining_entries hCounts]
    exact exists_congr fun xs => isPairing_iff_perm
  · intro hSome
    rw [canReorderDoubled, hLarge hSome]
    rfl

end Count

section Pairs

variable {xs ys zs : List Int}

/-- The array can be reordered into pairs of a number and its double. -/
def IsDoubled (A : List Int) : Prop := ∃ xs : List Int, A.Perm (xs.flatMap fun x => [x, 2 * x])

/-- The array can be reordered into such pairs and at least one of an odd negative number and its
half, rounded toward zero. -/
def IsRounded (A : List Int) : Prop :=
  ∃ xs ys : List Int, ys ≠ [] ∧ (∀ y ∈ ys, y < 0 ∧ y % 2 ≠ 0) ∧
    A.Perm ((xs.flatMap fun x => [x, 2 * x]) ++ ys.flatMap fun y => [y, y.tdiv 2])

/-- The element of a pair that is matched with the other one. -/
def matched (x : Int) : Int := if x < 0 then 2 * x else x

def doubled (z : Int) : Int := if z < 0 then z / 2 else z

theorem perm_matched (xs : List Int) :
    (xs.flatMap fun x => [x, 2 * x]).Perm
      ((xs.map matched).flatMap fun z => [z, partner z]) := by
  rw [List.flatMap_map]
  apply List.Perm.flatMap_left
  intro x _
  rw [matched, partner]
  split_ifs with hNeg hNonneg hNonneg
  · omega
  · rw [tdiv_two (by omega)]
    have hHalf : -(-(2 * x) / 2) = x := by omega
    rw [hHalf]
    exact List.Perm.swap _ _ _
  · exact List.Perm.refl _
  · omega

theorem perm_doubled (hEven : ∀ z ∈ zs, ¬(z < 0 ∧ z % 2 ≠ 0)) :
    (zs.flatMap fun z => [z, partner z]).Perm
      ((zs.map doubled).flatMap fun x => [x, 2 * x]) := by
  rw [List.flatMap_map]
  apply List.Perm.flatMap_left
  intro z hz
  have hz := hEven z hz
  rw [doubled, partner]
  split_ifs with hNonneg hNeg hNeg
  · omega
  · exact List.Perm.refl _
  · have hHalf : z.tdiv 2 = z / 2 := by
      rw [tdiv_two hNeg]
      omega
    have hDouble : 2 * (z / 2) = z := by omega
    rw [hHalf, hDouble]
    exact List.Perm.swap _ _ _
  · omega

theorem flatMap_partner_of_neg (h : ∀ y ∈ ys, y < 0 ∧ y % 2 ≠ 0) :
    (ys.flatMap fun y => [y, partner y]) = ys.flatMap fun y => [y, y.tdiv 2] := by
  apply List.flatMap_congr
  intro y hy
  rw [partner, if_neg (by have := (h y hy).1; omega)]

theorem exists_pairing_of_isDoubled (h : IsDoubled A) :
    ∃ zs : List Int, A.Perm (zs.flatMap fun z => [z, partner z]) ∧
      ∀ z ∈ zs, ¬(z < 0 ∧ z % 2 ≠ 0) := by
  obtain ⟨xs, hPerm⟩ := h
  refine ⟨xs.map matched, hPerm.trans (perm_matched xs), fun z hz => ?_⟩
  obtain ⟨x, -, rfl⟩ := List.mem_map.mp hz
  rw [matched]
  split_ifs <;> omega

theorem exists_pairing_of_isRounded (h : IsRounded A) :
    ∃ zs : List Int, A.Perm (zs.flatMap fun z => [z, partner z]) ∧
      ∃ z ∈ zs, z < 0 ∧ z % 2 ≠ 0 := by
  obtain ⟨xs, ys, hNe, hOdd, hPerm⟩ := h
  obtain ⟨y, hy⟩ := List.exists_mem_of_ne_nil ys hNe
  refine ⟨xs.map matched ++ ys, ?_, y, List.mem_append_right _ hy, hOdd y hy⟩
  rw [List.flatMap_append, flatMap_partner_of_neg hOdd]
  exact hPerm.trans ((perm_matched xs).append_right _)

/-- A pairing is exact, or it rounds somewhere. -/
theorem isDoubled_or_isRounded (hPerm : A.Perm (zs.flatMap fun z => [z, partner z])) :
    IsDoubled A ∨ IsRounded A := by
  by_cases hEven : ∀ z ∈ zs, ¬(z < 0 ∧ z % 2 ≠ 0)
  · exact Or.inl ⟨_, hPerm.trans (perm_doubled hEven)⟩
  · let odd : Int → Bool := fun z => z < 0 ∧ z % 2 ≠ 0
    have hOdd : ∀ y ∈ zs.filter odd, y < 0 ∧ y % 2 ≠ 0 := fun y hy => by
      simpa [odd] using (List.mem_filter.mp hy).2
    have hRest : ∀ z ∈ zs.filter (!odd ·), ¬(z < 0 ∧ z % 2 ≠ 0) := fun z hz hBoth => by
      have hOther := (List.mem_filter.mp hz).2
      simp [odd, hBoth] at hOther
    refine Or.inr ⟨(zs.filter (!odd ·)).map doubled, zs.filter odd, ?_, hOdd, ?_⟩
    · simp only [not_forall, not_not] at hEven
      obtain ⟨z, hz, hFound⟩ := hEven
      exact List.ne_nil_of_mem (List.mem_filter.mpr ⟨hz, by simpa [odd] using hFound⟩)
    · have hSplit := (List.filter_append_perm odd zs).symm.trans List.perm_append_comm
      have hFlat := hSplit.flatMap_right fun z => [z, partner z]
      rw [List.flatMap_append, flatMap_partner_of_neg hOdd] at hFlat
      exact hPerm.trans (hFlat.trans ((perm_doubled hRest).append_right _))

/-- No array can be reordered in both ways, as no element has a choice. -/
theorem not_isDoubled_and_isRounded (hDoubled : IsDoubled A) : ¬IsRounded A := by
  intro hRounded
  obtain ⟨zs, hPerm, hEven⟩ := exists_pairing_of_isDoubled hDoubled
  obtain ⟨zs', hPerm', z, hz, hOdd⟩ := exists_pairing_of_isRounded hRounded
  have hSame := IsPairing.perm le_partner (isPairing_iff_perm.mpr hPerm')
    (isPairing_iff_perm.mpr hPerm)
  exact hEven z (hSame.mem_iff.mp hz) hOdd

end Pairs

/-- The result is right if and only if no count exceeds the range of `int` and no reordering of
the array has a pair of an odd negative number and its rounded half. -/
theorem canReorderDoubled_iff (A : List Int) :
    (∃ b, canReorderDoubled A = some b ∧ (b = true ↔ IsDoubled A)) ↔
      (∀ v, A.count v < 2 ^ 31) ∧ ¬IsRounded A := by
  obtain ⟨hFits, hLarge⟩ := canReorderDoubled_eq A
  by_cases hAll : ∀ v, A.count v < 2 ^ 31
  · obtain ⟨b, hRun, hIff⟩ := hFits hAll
    rw [and_iff_right hAll, hRun]
    simp only [Option.some.injEq, exists_eq_left', hIff]
    constructor
    · intro h hRounded
      obtain ⟨zs, hPerm, -⟩ := exists_pairing_of_isRounded hRounded
      exact not_isDoubled_and_isRounded (h.mp ⟨zs, hPerm⟩) hRounded
    · intro hNone
      constructor
      · rintro ⟨zs, hPerm⟩
        exact (isDoubled_or_isRounded hPerm).resolve_right hNone
      · intro hDoubled
        obtain ⟨zs, hPerm, -⟩ := exists_pairing_of_isDoubled hDoubled
        exact ⟨zs, hPerm⟩
  · refine iff_of_false ?_ fun h => hAll h.1
    simp only [not_forall, Nat.not_lt] at hAll
    rw [hLarge hAll]
    simp

/-- The numbers -3 and -1 are taken for a pair, as -3 divided by two is -1. -/
theorem not_canReorderDoubled_iff :
    ¬∀ A : List Int, A.length % 2 = 0 → (∀ a ∈ A, -2 ^ 30 < a ∧ a < 2 ^ 30) →
      ∃ b, canReorderDoubled A = some b ∧ (b = true ↔ IsDoubled A) := by
  intro hAll
  obtain ⟨b, hRun, hIff⟩ := hAll [-3, -1] (by decide) (by decide)
  have hTrue : canReorderDoubled [-3, -1] = some true := by decide +kernel
  rw [hTrue, Option.some.injEq] at hRun
  obtain ⟨xs, hPerm⟩ := hIff.mp hRun.symm
  have hMem : ∀ x ∈ xs, x ∈ [-3, -1] ∧ 2 * x ∈ [-3, -1] := fun x hx =>
    ⟨hPerm.mem_iff.mpr (List.mem_flatMap.mpr ⟨x, hx, by simp⟩),
      hPerm.mem_iff.mpr (List.mem_flatMap.mpr ⟨x, hx, by simp⟩)⟩
  cases xs with
  | nil => exact absurd hPerm.length_eq (by decide)
  | cons x xs =>
      have hx := hMem x (by simp)
      simp only [List.mem_cons, List.not_mem_nil, or_false] at hx
      omega

end CppPerf.Counting.DoubledPairs
