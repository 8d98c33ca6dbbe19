import Mathlib.Algebra.Order.BigOperators.Group.List
import Mathlib.Algebra.Order.Ring.Int
import Mathlib.Data.Set.Card
import Mathlib.Tactic.Common

/-! Amounts that are paid with coins, each of which may be used again: the least number of coins,
and the number of ways. -/
namespace Payments

variable {coins front l l' : List Int} {amount c v w cap : Int} {n : Nat}

section Fewest

/-- `n` coins make the amount. -/
def Pays (coins : List Int) (amount : Int) (n : Nat) : Prop :=
  ∃ xs : List Int, (∀ x ∈ xs, x ∈ coins) ∧ xs.sum = amount ∧ xs.length = n

theorem pays_zero_iff : Pays coins amount 0 ↔ amount = 0 := by
  constructor
  · rintro ⟨xs, -, rfl, hLength⟩
    rw [List.length_eq_zero_iff.mp hLength, List.sum_nil]
  · rintro rfl
    exact ⟨[], by simp, rfl, rfl⟩

/-- One of the coins is taken first. -/
theorem pays_succ_iff : Pays coins amount (n + 1) ↔ ∃ c ∈ coins, Pays coins (amount - c) n := by
  constructor
  · rintro ⟨xs, hMem, rfl, hLength⟩
    obtain ⟨c, xs, rfl⟩ := List.exists_cons_of_length_eq_add_one hLength
    rw [List.forall_mem_cons] at hMem
    refine ⟨c, hMem.1, xs, hMem.2, ?_, Nat.succ.inj hLength⟩
    rw [List.sum_cons, add_sub_cancel_left]
  · rintro ⟨c, hc, xs, hMem, hSum, rfl⟩
    refine ⟨c :: xs, List.forall_mem_cons.mpr ⟨hc, hMem⟩, ?_, rfl⟩
    rw [List.sum_cons, hSum]
    omega

theorem Pays.congr (h : ∀ c, c ∈ coins ↔ c ∈ l) : Pays coins amount n ↔ Pays l amount n := by
  simp only [Pays, h]

theorem Pays.le (hPos : ∀ c ∈ coins, 0 < c) (h : Pays coins amount n) : (n : Int) ≤ amount := by
  induction n generalizing amount with
  | zero => exact (pays_zero_iff.mp h).ge
  | succ n ih =>
      obtain ⟨c, hc, hRest⟩ := pays_succ_iff.mp h
      have hLe := ih hRest
      have hCoin := hPos c hc
      omega

/-- The least number of coins, or the cap if there is none below it. -/
structure Fewest (cap : Int) (coins : List Int) (amount v : Int) : Prop where
  le_cap : v ≤ cap
  least : ∀ n, Pays coins amount n → v ≤ n
  found : v = cap ∨ ∃ n : Nat, v = n ∧ Pays coins amount n

theorem Fewest.congr (hMem : ∀ c, c ∈ coins ↔ c ∈ l) (h : Fewest cap coins amount v) :
    Fewest cap l amount v where
  le_cap := h.le_cap
  least n hPays := h.least n ((Pays.congr hMem).mpr hPays)
  found := h.found.imp_right fun ⟨n, hv, hPays⟩ => ⟨n, hv, (Pays.congr hMem).mp hPays⟩

theorem fewest_zero (hCap : 0 ≤ cap) : Fewest cap coins 0 0 where
  le_cap := hCap
  least n _ := Int.natCast_nonneg n
  found := Or.inr ⟨0, rfl, pays_zero_iff.mpr rfl⟩

theorem fewest_of_neg (hPos : ∀ c ∈ coins, 0 < c) (hNeg : amount < 0) :
    Fewest cap coins amount cap where
  le_cap := le_rfl
  least n h := by
    have hLe := h.le hPos
    omega
  found := Or.inl rfl

/-- The least number of coins of which the first is one of some coins. -/
structure FewestFrom (cap : Int) (coins front : List Int) (amount v : Int) : Prop where
  le_cap : v ≤ cap
  least : ∀ c ∈ front, ∀ n, Pays coins (amount - c) n → v ≤ n + 1
  found : v = cap ∨ ∃ n : Nat, v = n ∧ Pays coins amount n

theorem fewestFrom_nil : FewestFrom cap coins [] amount cap where
  le_cap := le_rfl
  least _ hc := absurd hc List.not_mem_nil
  found := Or.inl rfl

/-- One more coin is tried first. -/
theorem FewestFrom.try (h : FewestFrom cap coins front amount v) (hc : c ∈ coins)
    (hRest : Fewest cap coins (amount - c) w) :
    FewestFrom cap coins (front ++ [c]) amount (min v (1 + w)) where
  le_cap := (min_le_left _ _).trans h.le_cap
  least d hd n hPays := by
    rcases List.mem_append.mp hd with hOld | hNew
    · exact (min_le_left _ _).trans (h.least d hOld n hPays)
    · rw [List.mem_singleton] at hNew
      subst hNew
      have hLe := hRest.least n hPays
      omega
  found := by
    have hCap := h.le_cap
    rcases min_choice v (1 + w) with hOld | hNew
    · rw [hOld]
      exact h.found
    · rw [hNew]
      rcases hRest.found with rfl | ⟨n, rfl, hPays⟩
      · omega
      · refine Or.inr ⟨n + 1, by push_cast; omega, ?_⟩
        exact pays_succ_iff.mpr ⟨c, hc, hPays⟩

/-- A coin that is larger than the amount is passed over. -/
theorem FewestFrom.skip (hPos : ∀ c ∈ coins, 0 < c) (h : FewestFrom cap coins front amount v)
    (hLarge : amount < c) : FewestFrom cap coins (front ++ [c]) amount v where
  le_cap := h.le_cap
  least d hd n hPays := by
    rcases List.mem_append.mp hd with hOld | hNew
    · exact h.least d hOld n hPays
    · rw [List.mem_singleton] at hNew
      subst hNew
      have hLe := hPays.le hPos
      omega
  found := h.found

theorem FewestFrom.fewest (hAmount : amount ≠ 0) (h : FewestFrom cap coins coins amount v) :
    Fewest cap coins amount v where
  le_cap := h.le_cap
  least n hPays := by
    cases n with
    | zero => exact absurd (pays_zero_iff.mp hPays) hAmount
    | succ n =>
        obtain ⟨c, hc, hRest⟩ := pays_succ_iff.mp hPays
        exact h.least c hc n hRest
  found := h.found

end Fewest

section Ways

/-- How often each coin is used. -/
def Uses (coins : List Int) (amount : Int) : Set (List Nat) :=
  {ms | ms.length = coins.length ∧
    (List.zipWith (fun (m : Nat) (c : Int) => m * c) ms coins).sum = amount}

/-- The number of ways: a coin is used once more, or not any more. -/
def ways : List Int → Int → Nat
  | [], amount => if amount = 0 then 1 else 0
  | c :: coins, amount =>
      ways coins amount + if 0 < c ∧ c ≤ amount then ways (c :: coins) (amount - c) else 0
termination_by coins amount => (coins.length, amount.toNat)

theorem ways_cons_eq (c : Int) (coins : List Int) (amount : Int) : ways (c :: coins) amount =
    ways coins amount + if 0 < c ∧ c ≤ amount then ways (c :: coins) (amount - c) else 0 := by
  rw [ways]

theorem ways_cons (hc : 0 < c) (h : c ≤ amount) :
    ways (c :: coins) amount = ways coins amount + ways (c :: coins) (amount - c) := by
  rw [ways_cons_eq, if_pos ⟨hc, h⟩]

theorem ways_cons_of_lt (h : amount < c) : ways (c :: coins) amount = ways coins amount := by
  rw [ways_cons_eq, if_neg (by omega), Nat.add_zero]

theorem ways_of_lt (hPos : 0 < amount) (h : ∀ c ∈ coins, amount < c) : ways coins amount = 0 := by
  induction coins with
  | nil => rw [ways, if_neg hPos.ne']
  | cons c coins ih =>
      rw [List.forall_mem_cons] at h
      rw [ways_cons_of_lt h.1, ih h.2]

theorem ways_zero (hPos : ∀ c ∈ coins, 0 < c) : ways coins 0 = 1 := by
  induction coins with
  | nil => rw [ways, if_pos rfl]
  | cons c coins ih =>
      rw [List.forall_mem_cons] at hPos
      rw [ways_cons_of_lt hPos.1, ih hPos.2]

/-- Two coins can be tried in either order. -/
theorem ways_swap (a b : Int) (coins : List Int) (amount : Int) :
    ways (a :: b :: coins) amount = ways (b :: a :: coins) amount := by
  induction hn : amount.toNat using Nat.strongRecOn generalizing amount with
  | ind n ih =>
      have hSmaller : ∀ d, 0 < d ∧ d ≤ amount → ways (a :: b :: coins) (amount - d) =
          ways (b :: a :: coins) (amount - d) := fun d h => ih _ (by omega) (amount - d) rfl
      rw [ways_cons_eq a, ways_cons_eq b coins, ways_cons_eq b (a :: coins), ways_cons_eq a coins]
      by_cases hBoth : 0 < a ∧ 0 < b ∧ a + b ≤ amount
      · -- Both sides are sums of the ways with neither, one or both of the coins.
        have hFirst : ways (b :: a :: coins) (amount - a) = _ := ways_cons hBoth.2.1
          (show b ≤ amount - a by omega)
        have hSecond : ways (a :: b :: coins) (amount - b) = _ := ways_cons hBoth.1
          (show a ≤ amount - b by omega)
        rw [Int.sub_sub] at hFirst hSecond
        rw [if_pos (by omega), if_pos (by omega), if_pos (by omega), if_pos (by omega),
          hSmaller a (by omega), ← hSmaller b (by omega), hFirst, hSecond, Int.add_comm b a,
          hSmaller (a + b) (by omega)]
        omega
      · have hFirst : 0 < a ∧ a ≤ amount →
            ways (a :: b :: coins) (amount - a) = ways (a :: coins) (amount - a) := fun h => by
          rw [hSmaller a h, ways_cons_eq b, if_neg (by omega), Nat.add_zero]
        have hSecond : 0 < b ∧ b ≤ amount →
            ways (b :: a :: coins) (amount - b) = ways (b :: coins) (amount - b) := fun h => by
          rw [← hSmaller b h, ways_cons_eq a, if_neg (by omega), Nat.add_zero]
        split_ifs with hB hA hA
        · rw [hFirst hA, hSecond hB]
          omega
        · rw [hSecond hB, Nat.add_zero, Nat.add_zero]
        · rw [hFirst hA, Nat.add_zero, Nat.add_zero]
        · rfl

theorem ways_perm (h : l.Perm l') (amount : Int) : ways l amount = ways l' amount := by
  induction h generalizing amount with
  | nil => rfl
  | @cons c l l' _ ih =>
      induction hn : amount.toNat using Nat.strongRecOn generalizing amount with
      | ind n ihAmount =>
          rw [ways_cons_eq c l, ways_cons_eq c l', ih]
          split_ifs with hCoin
          · rw [ihAmount _ (by omega) (amount - c) rfl]
          · rfl
  | swap a b l => exact ways_swap b a l amount
  | trans _ _ ih ih' => rw [ih, ih']

/-- The first coin is used once more. -/
def useFirst : List Nat → List Nat
  | [] => []
  | m :: ms => (m + 1) :: ms

/-- The first coin is not used, or used once more than in a way to make the rest. -/
theorem uses_cons (c : Int) (coins : List Int) (amount : Int) : Uses (c :: coins) amount =
    List.cons 0 '' Uses coins amount ∪ useFirst '' Uses (c :: coins) (amount - c) := by
  ext ms
  constructor
  · rintro ⟨hLength, hSum⟩
    match ms, hLength, hSum with
    | 0 :: ms, hLength, hSum =>
        refine Or.inl ⟨ms, ⟨Nat.succ.inj hLength, ?_⟩, rfl⟩
        simpa using hSum
    | (m + 1) :: ms, hLength, hSum =>
        refine Or.inr ⟨m :: ms, ⟨hLength, ?_⟩, rfl⟩
        rw [List.zipWith_cons_cons, List.sum_cons, Nat.cast_add_one, Int.add_mul] at hSum
        rw [List.zipWith_cons_cons, List.sum_cons]
        omega
  · rintro (⟨ms, ⟨hLength, hSum⟩, rfl⟩ | ⟨ms, ⟨hLength, hSum⟩, rfl⟩)
    · refine ⟨congrArg Nat.succ hLength, ?_⟩
      simpa using hSum
    · match ms, hLength, hSum with
      | m :: ms, hLength, hSum =>
          refine ⟨hLength, ?_⟩
          rw [List.zipWith_cons_cons, List.sum_cons] at hSum
          rw [useFirst, List.zipWith_cons_cons, List.sum_cons, Nat.cast_add_one, Int.add_mul]
          omega

theorem sum_uses_nonneg (hPos : ∀ c ∈ coins, 0 < c) (ms : List Nat) :
    0 ≤ (List.zipWith (fun (m : Nat) (c : Int) => m * c) ms coins).sum := by
  induction coins generalizing ms with
  | nil => simp
  | cons c coins ih =>
      rw [List.forall_mem_cons] at hPos
      cases ms with
      | nil => exact le_rfl
      | cons m ms =>
          rw [List.zipWith_cons_cons, List.sum_cons]
          exact add_nonneg (Int.mul_nonneg (Int.natCast_nonneg m) hPos.1.le) (ih hPos.2 ms)

theorem uses_eq_empty (hPos : ∀ c ∈ coins, 0 < c) (hNeg : amount < 0) : Uses coins amount = ∅ := by
  rw [Set.eq_empty_iff_forall_notMem]
  rintro ms ⟨-, hSum⟩
  have hNonneg := sum_uses_nonneg hPos ms
  omega

theorem useFirst_injOn (c : Int) (coins : List Int) (amount : Int) :
    Set.InjOn useFirst (Uses (c :: coins) amount) := by
  rintro ms ⟨hLength, -⟩ ms' ⟨hLength', -⟩ hEq
  match ms, ms', hLength, hLength', hEq with
  | m :: ms, m' :: ms', _, _, hEq =>
      obtain ⟨hFirst, rfl⟩ := List.cons.inj hEq
      rw [Nat.succ.inj hFirst]

theorem encard_uses_cons (c : Int) (coins : List Int) (amount : Int) :
    (Uses (c :: coins) amount).encard =
      (Uses coins amount).encard + (Uses (c :: coins) (amount - c)).encard := by
  have hDisjoint : Disjoint (List.cons 0 '' Uses coins amount)
      (useFirst '' Uses (c :: coins) (amount - c)) := by
    rw [Set.disjoint_left]
    rintro _ ⟨ms, -, rfl⟩ ⟨ms', -, hEq⟩
    match ms', hEq with
    | [], hEq => exact absurd hEq.symm (List.cons_ne_nil 0 ms)
    | m :: ms', hEq => exact absurd (List.cons.inj hEq).1 (Nat.succ_ne_zero m)
  rw [uses_cons, Set.encard_union_eq hDisjoint, (useFirst_injOn c coins _).encard_image,
    List.cons_injective.injOn.encard_image]

/-- `ways` counts the ways. -/
theorem encard_uses (hPos : ∀ c ∈ coins, 0 < c) (amount : Int) :
    (Uses coins amount).encard = ways coins amount := by
  induction coins generalizing amount with
  | nil =>
      rw [ways]
      split_ifs with hZero
      · have hOne : Uses [] amount = {[]} := by
          ext ms
          simp [Uses, hZero]
        rw [hOne, Set.encard_singleton, Nat.cast_one]
      · have hNone : Uses [] amount = ∅ := by
          ext ms
          simp [Uses, Ne.symm hZero]
        rw [hNone, Set.encard_empty, Nat.cast_zero]
  | cons c coins ih =>
      have hPositive := List.forall_mem_cons.mp hPos
      induction hn : amount.toNat using Nat.strongRecOn generalizing amount with
      | ind n ihAmount =>
          rw [encard_uses_cons, ih hPositive.2]
          rcases lt_or_ge amount c with hLess | hGe
          · rw [uses_eq_empty hPos (by omega), ways_cons_of_lt hLess, Set.encard_empty, add_zero]
          · have hCoin := hPositive.1
            rw [ihAmount _ (by omega) (amount - c) rfl, ways_cons hCoin hGe, Nat.cast_add]

end Ways
end Payments
