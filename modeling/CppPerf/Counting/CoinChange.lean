import CppPerf.Semantics.GridTable
import CppPerf.Semantics.Loops
import CppPerf.Semantics.Payments
import CppPerf.Text.Digits

/-! The functions of `coin_change.cpp`. Numbers of coins and of ways are not bounded. A vector of
negative size and a position outside of a vector are failures, and so is a recursion that does not
end because a coin is not positive. -/
namespace CppPerf.Counting.CoinChange

open Text GridTable Payments Loops

def INT_MAX : Int := 2147483647

/-- The size of the vectors. -/
def amounts (amount : Int) : Option Nat :=
  let size := int (amount + 1)
  if size < 0 then none else some size.toNat

mutual

/-- The recursion of `coinChange`. -/
def coinChange_from (coins : List Int) (amount : Int) (dp : List Int) : Option (Int × List Int) :=
  if amount = 0 then some (0, dp)
  else
    let count := INT_MAX / 2
    if amount < 0 then some (count, dp)
    else do
      let known ← dp[amount.toNat]?
      if 0 ≤ known then some (known, dp)
      else
        let (count, dp) ← coin_loop coins amount coins count dp
        return (count, dp.set amount.toNat count)
termination_by (amount.toNat, coins.length + 1)

/-- The loop over the coins of `coinChange`, for a positive amount. -/
def coin_loop (coins : List Int) (amount : Int) :
    (rest : List Int) → (count : Int) → (dp : List Int) → Option (Int × List Int)
  | [], count, dp => some (count, dp)
  | c :: rest, count, dp =>
      if 0 < c ∧ 0 < amount then do
        let (fewer, dp) ← coinChange_from coins (amount - c) dp
        coin_loop coins amount rest (min count (1 + fewer)) dp
      else none
termination_by rest => (amount.toNat, rest.length)

end

def coinChange (coins : List Int) (amount : Int) : Option Int := do
  let size ← amounts amount
  let (ans, _) ← coinChange_from coins amount (List.replicate size (-1))
  return if ans ≥ INT_MAX / 2 then -1 else ans

/-- The loop over the coins of `coinChange2`. -/
def count_loop (dp : List Int) (money : Nat) : (rest : List Int) → (count : Int) → Option Int
  | [], count => some count
  | c :: rest, count =>
      if c ≤ money then do
        let fewer ← if 0 ≤ money - c then dp[(money - c).toNat]? else none
        count_loop dp money rest (min count (1 + fewer))
      else count_loop dp money rest count

def coinChange2 (coins : List Int) (amount : Int) : Option Int := do
  let size ← amounts amount
  let coins := coins.mergeSort fun a b => a ≥ b
  let dp ← (List.range' 1 (size - 1)).foldlM (fun dp money => do
    let count ← count_loop dp money coins size
    return dp.set money count) (List.replicate size 0)
  let last ← dp[amount.toNat]?
  return if last > amount then -1 else last

mutual

/-- The recursion of `change`. -/
def change_from (coins : List Int) (amount : Int) (coin : Nat) (dp : Table Int) :
    Option (Int × Table Int) :=
  if amount = 0 then some (1, dp)
  else if coin = coins.length then some (0, dp)
  else if 0 ≤ dp amount.toNat coin then some (dp amount.toNat coin, dp)
  else do
    let (count, dp) ← change_loop coins amount coin 0 dp
    return (count, dp.set amount.toNat coin count)
termination_by (amount.toNat, coins.length + 1)

def change_loop (coins : List Int) (amount : Int) (c : Nat) (count : Int) (dp : Table Int) :
    Option (Int × Table Int) :=
  if hc : c < coins.length then
    if amount < coins[c] then some (count, dp)
    else if 0 < coins[c] then do
      let (more, dp) ← change_from coins (amount - coins[c]) c dp
      change_loop coins amount (c + 1) (count + more) dp
    else none
  else some (count, dp)
termination_by (amount.toNat, coins.length - c)

end

def change (amount : Int) (coins : List Int) : Option Int := do
  let coins := coins.mergeSort fun a b => a ≤ b
  let _ ← amounts amount
  let (count, _) ← change_from coins amount 0 fun _ _ => -1
  return count

/-- The loop over `money` of `change2`. -/
def money_loop (dp : List Int) (c : Int) : Option (List Int) :=
  if c < 0 then none
  else (List.range' c.toNat (dp.length - c.toNat)).foldlM (fun dp money => do
    let fewer ← dp[money - c.toNat]?
    let old ← dp[money]?
    return dp.set money (old + fewer)) dp

def change2 (amount : Int) (coins : List Int) : Option Int := do
  let size ← amounts amount
  let dp ← coins.foldlM money_loop ((List.replicate size 0).set 0 1)
  dp[amount.toNat]?

section Recursion

variable {coins front rest dp : List Int} {amount count v : Int} {size : Nat}

/-- What is remembered of an amount is its least number of coins. -/
structure Remembers (coins : List Int) (size : Nat) (dp : List Int) : Prop where
  length_eq : dp.length = size
  known : ∀ (a : Nat) (v : Int), dp[a]? = some v → v = -1 ∨ Fewest (INT_MAX / 2) coins a v

theorem remembers_start (coins : List Int) (size : Nat) :
    Remembers coins size (List.replicate size (-1)) where
  length_eq := List.length_replicate
  known a v hv := by
    obtain ⟨_, hEq⟩ := List.getElem?_eq_some_iff.mp hv
    rw [List.getElem_replicate] at hEq
    exact Or.inl hEq.symm

theorem Remembers.set (h : Remembers coins size dp) {a : Nat}
    (hv : Fewest (INT_MAX / 2) coins a v) : Remembers coins size (dp.set a v) where
  length_eq := by rw [List.length_set, h.length_eq]
  known b w hw := by
    rw [List.getElem?_set] at hw
    split_ifs at hw with hSame hBound
    · obtain rfl := Option.some.inj hw
      rw [← hSame]
      exact Or.inr hv
    · exact h.known b w hw

/-- The recursion returns the least number of coins. -/
def Answers (coins : List Int) (size : Nat) (amount : Int) : Prop :=
  ∀ dp, Remembers coins size dp → ∃ v dp', coinChange_from coins amount dp = some (v, dp') ∧
    Fewest (INT_MAX / 2) coins amount v ∧ Remembers coins size dp'

theorem coin_loop_spec (hPos : ∀ c ∈ coins, 0 < c) (hAmount : 0 < amount)
    (hSmaller : ∀ c ∈ coins, Answers coins size (amount - c)) (hCoins : front ++ rest = coins)
    (hFront : FewestFrom (INT_MAX / 2) coins front amount count) (hMemo : Remembers coins size dp) :
    ∃ v dp', coin_loop coins amount rest count dp = some (v, dp') ∧
      Fewest (INT_MAX / 2) coins amount v ∧ Remembers coins size dp' := by
  induction rest generalizing front count dp with
  | nil =>
      rw [List.append_nil] at hCoins
      rw [hCoins] at hFront
      refine ⟨count, dp, ?_, hFront.fewest hAmount.ne', hMemo⟩
      rw [coin_loop]
  | cons c rest ih =>
      have hc : c ∈ coins := by simp [← hCoins]
      obtain ⟨fewer, dp', hRun, hFewest, hMemo'⟩ := hSmaller c hc dp hMemo
      rw [coin_loop, if_pos ⟨hPos c hc, hAmount⟩, hRun]
      exact ih (by simpa using hCoins) (hFront.try hc hFewest) hMemo'

theorem coinChange_from_spec (hPos : ∀ c ∈ coins, 0 < c) (hSize : amount < size) :
    Answers coins size amount := by
  induction hn : amount.toNat using Nat.strongRecOn generalizing amount with
  | ind n ih =>
      intro dp hMemo
      rw [coinChange_from]
      split_ifs with hZero hNeg
      · rw [hZero]
        exact ⟨0, dp, rfl, fewest_zero (by decide), hMemo⟩
      · exact ⟨_, dp, rfl, fewest_of_neg hPos hNeg, hMemo⟩
      · have hBound : amount.toNat < dp.length := by
          rw [hMemo.length_eq]
          omega
        have hNat : (amount.toNat : Int) = amount := Int.toNat_of_nonneg (not_lt.mp hNeg)
        have hKnown := hMemo.known amount.toNat _ (List.getElem?_eq_getElem hBound)
        rw [hNat] at hKnown
        simp only [List.getElem?_eq_getElem hBound, Option.bind_eq_bind, Option.bind_some]
        split_ifs with hOnce
        · refine ⟨_, dp, rfl, hKnown.resolve_left ?_, hMemo⟩
          omega
        · have hSmaller : ∀ c ∈ coins, Answers coins size (amount - c) := fun c hc => by
            have hCoin := hPos c hc
            exact ih _ (by omega) (by omega) rfl
          obtain ⟨v, dp', hRun, hFewest, hMemo'⟩ := coin_loop_spec hPos (by omega) hSmaller
            (List.nil_append coins) fewestFrom_nil hMemo
          rw [hRun]
          refine ⟨v, _, rfl, hFewest, hMemo'.set ?_⟩
          rwa [hNat]

end Recursion

section Table

variable {coins front rest dp : List Int} {cap count v : Int} {size money : Nat}

/-- The entries below an amount. -/
structure FilledTo (cap : Int) (coins : List Int) (size money : Nat) (dp : List Int) : Prop where
  length_eq : dp.length = size
  entry : ∀ a < money, ∃ v, dp[a]? = some v ∧ Fewest cap coins a v

theorem count_loop_spec (hPos : ∀ c ∈ coins, 0 < c) (hMoney : 0 < money)
    (hDp : FilledTo cap coins size money dp) (hCoins : front ++ rest = coins)
    (hFront : FewestFrom cap coins front money count) :
    ∃ v, count_loop dp money rest count = some v ∧ Fewest cap coins money v := by
  induction rest generalizing front count with
  | nil =>
      rw [List.append_nil] at hCoins
      rw [hCoins] at hFront
      exact ⟨count, rfl, hFront.fewest (by omega)⟩
  | cons c rest ih =>
      have hc : c ∈ coins := by simp [← hCoins]
      have hCoin := hPos c hc
      have hNext : (front ++ [c]) ++ rest = coins := by simpa using hCoins
      rw [count_loop]
      split_ifs with hLe hIndex
      · obtain ⟨fewer, hEntry, hFewest⟩ := hDp.entry ((money : Int) - c).toNat (by omega)
        rw [Int.toNat_of_nonneg hIndex] at hFewest
        rw [hEntry]
        exact ih hNext (hFront.try hc hFewest)
      · omega
      · exact ih hNext (hFront.skip hPos (not_le.mp hLe))

theorem filledTo_step (hPos : ∀ c ∈ coins, 0 < c) (hMoney : 0 < money) (hLt : money < size)
    (h : FilledTo size coins size money dp) :
    ∃ dp', (do
        let count ← count_loop dp money coins size
        return dp.set money count : Option (List Int)) = some dp' ∧
      FilledTo size coins size (money + 1) dp' := by
  obtain ⟨v, hRun, hFewest⟩ := count_loop_spec hPos hMoney h (List.nil_append coins) fewestFrom_nil
  rw [hRun]
  refine ⟨_, rfl, by rw [List.length_set, h.length_eq], fun a ha => ?_⟩
  rw [List.getElem?_set]
  split_ifs with hSame hBound
  · exact ⟨v, rfl, by rwa [← hSame]⟩
  · rw [h.length_eq] at hBound
    omega
  · exact h.entry a (by omega)

end Table

section Least

variable {coins : List Int} {amount r : Int} {size : Nat}

/-- The least number of coins, or -1 if the amount cannot be paid. -/
def LeastCoins (coins : List Int) (amount r : Int) : Prop :=
  (∃ n : Nat, r = n ∧ IsLeast {n | Pays coins amount n} n) ∨
    (r = -1 ∧ ∀ n, ¬Pays coins amount n)

theorem isLeast_of_fewest {cap v : Int} (h : Fewest cap coins amount v) (hLt : v < cap) :
    ∃ n : Nat, v = n ∧ IsLeast {n | Pays coins amount n} n := by
  obtain ⟨n, rfl, hPays⟩ := h.found.resolve_left hLt.ne
  exact ⟨n, rfl, hPays, fun m hm => by exact_mod_cast h.least m hm⟩

theorem amounts_eq (hAmount : 0 ≤ amount) (hInt : amount < 2 ^ 31 - 1) :
    amounts amount = some (amount.toNat + 1) := by
  have hNext : int (amount + 1) = amount + 1 := Int.bmod_eq_of_le (by omega) (by omega)
  have hSize : (amount + 1).toNat = amount.toNat + 1 := by omega
  rw [amounts, hNext, hSize]
  exact if_neg (by omega)

theorem coinChange2_spec (hPos : ∀ c ∈ coins, 0 < c) (hAmount : 0 ≤ amount)
    (hInt : amount < 2 ^ 31 - 1) : ∃ r, coinChange2 coins amount = some r ∧
      LeastCoins coins amount r := by
  have hSame (c : Int) : c ∈ coins.mergeSort (fun a b => a ≥ b) ↔ c ∈ coins := List.mem_mergeSort
  have hSorted : ∀ c ∈ coins.mergeSort (fun a b => a ≥ b), 0 < c := fun c hc =>
    hPos c ((hSame c).mp hc)
  have hStart : FilledTo ((amount.toNat + 1 : Nat) : Int) (coins.mergeSort fun a b => a ≥ b)
      (amount.toNat + 1) 1 (List.replicate (amount.toNat + 1) 0) := by
    refine ⟨List.length_replicate, fun a ha => ⟨0, ?_, ?_⟩⟩
    · rw [List.getElem?_replicate, if_pos (by omega)]
    · obtain rfl : a = 0 := by omega
      exact fewest_zero (Int.natCast_nonneg _)
  obtain ⟨dp, hRun, hDp⟩ := foldlM_range'_holds 1 (amount.toNat + 1 - 1)
    (fun money dp hMoney hLt h => filledTo_step hSorted hMoney (by omega) h) hStart
  obtain ⟨v, hEntry, hFewest⟩ := hDp.entry amount.toNat (by omega)
  replace hFewest := hFewest.congr hSame
  rw [Int.toNat_of_nonneg hAmount] at hFewest
  rw [coinChange2, amounts_eq hAmount hInt]
  simp only [Option.bind_eq_bind, Option.bind_some] at hRun ⊢
  rw [hRun, Option.bind_some, hEntry]
  refine ⟨_, rfl, ?_⟩
  split_ifs with hNone
  · refine Or.inr ⟨rfl, fun n hPays => ?_⟩
    have hLe := hPays.le hPos
    have hLeast := hFewest.least n hPays
    omega
  · exact Or.inl (isLeast_of_fewest hFewest (by omega))

theorem coinChange_eq (hPos : ∀ c ∈ coins, 0 < c) (hAmount : 0 ≤ amount)
    (hInt : amount < 2 ^ 31 - 1) : ∃ v, Fewest (INT_MAX / 2) coins amount v ∧
      coinChange coins amount = some (if v ≥ INT_MAX / 2 then -1 else v) := by
  obtain ⟨v, dp, hRun, hFewest, -⟩ := coinChange_from_spec hPos
    (show amount < (amount.toNat + 1 : Nat) by omega) _ (remembers_start coins _)
  refine ⟨v, hFewest, ?_⟩
  rw [coinChange, amounts_eq hAmount hInt, Option.bind_eq_bind, Option.bind_some, hRun]
  rfl

/-- The mark for an amount that cannot be paid is itself a number of coins. -/
theorem coinChange_least_iff (hPos : ∀ c ∈ coins, 0 < c) (hAmount : 0 ≤ amount)
    (hInt : amount < 2 ^ 31 - 1) :
    (∃ r, coinChange coins amount = some r ∧ LeastCoins coins amount r) ↔
      ((∃ n, Pays coins amount n) → ∃ n < 2 ^ 30 - 1, Pays coins amount n) := by
  obtain ⟨v, hFewest, hRun⟩ := coinChange_eq hPos hAmount hInt
  have hCap : INT_MAX / 2 = 2 ^ 30 - 1 := rfl
  rw [hRun]
  split_ifs with hMark
  · constructor
    · rintro ⟨_, hEq, hLeast⟩ hSome
      obtain rfl := Option.some.inj hEq
      rcases hLeast with ⟨n, hn, -⟩ | ⟨-, hNone⟩
      · omega
      · exact absurd hSome (not_exists.mpr hNone)
    · intro hFew
      refine ⟨-1, rfl, Or.inr ⟨rfl, fun n hPays => ?_⟩⟩
      obtain ⟨m, hm, hPays'⟩ := hFew ⟨n, hPays⟩
      have hLe := hFewest.least m hPays'
      omega
  · have hLeast := isLeast_of_fewest hFewest (by omega)
    refine iff_of_true ⟨v, rfl, Or.inl hLeast⟩ fun _ => ?_
    obtain ⟨n, rfl, hn⟩ := hLeast
    exact ⟨n, by omega, hn.1⟩

end Least

section Ways

variable {coins : List Int} {amount : Int} {coin : Nat} {dp : Table Int}

/-- What is remembered is the number of ways with the coins from a position on. -/
def RemembersWays (coins : List Int) (dp : Table Int) : Prop :=
  ∀ a c, dp a c = -1 ∨ dp a c = ways (coins.drop c) a

/-- The recursion counts the ways. -/
def Counts (coins : List Int) (coin : Nat) (amount : Int) : Prop :=
  ∀ dp, RemembersWays coins dp → ∃ dp', change_from coins amount coin dp =
    some ((ways (coins.drop coin) amount : Int), dp') ∧ RemembersWays coins dp'

theorem change_loop_spec (hPos : ∀ c ∈ coins, 0 < c) (hSorted : coins.Pairwise (· ≤ ·))
    (hAmount : 0 < amount) (hSmaller : ∀ a c, 0 ≤ a → a < amount → c ≤ coins.length →
      Counts coins c a) {c : Nat} (hc : c ≤ coins.length) (hMemo : RemembersWays coins dp)
    (count : Int) : ∃ dp', change_loop coins amount c count dp =
      some (count + ways (coins.drop c) amount, dp') ∧ RemembersWays coins dp' := by
  induction hn : coins.length - c using Nat.strongRecOn generalizing c count dp with
  | ind n ih =>
      rw [change_loop]
      split_ifs with hBound hBreak hCoin
      · have hLarge : ∀ x ∈ coins.drop c, amount < x := by
          have hRest := hSorted.sublist (List.drop_sublist c coins)
          rw [List.drop_eq_getElem_cons hBound] at hRest ⊢
          rw [List.forall_mem_cons]
          refine ⟨hBreak, fun x hx => hBreak.trans_le ?_⟩
          exact (List.pairwise_cons.mp hRest).1 x hx
        rw [ways_of_lt hAmount hLarge, Nat.cast_zero, Int.add_zero]
        exact ⟨dp, rfl, hMemo⟩
      · obtain ⟨dp', hRun, hMemo'⟩ := hSmaller (amount - coins[c]) c (by omega) (by omega) hc dp
          hMemo
        obtain ⟨dp'', hRest, hMemo''⟩ := ih _ (by omega) (c := c + 1) (by omega) hMemo'
          (count + ways (coins.drop c) (amount - coins[c])) rfl
        refine ⟨dp'', ?_, hMemo''⟩
        rw [hRun, Option.bind_eq_bind, Option.bind_some]
        dsimp only
        rw [hRest, List.drop_eq_getElem_cons hBound, ways_cons hCoin (not_lt.mp hBreak),
          Nat.cast_add]
        congr 2
        omega
      · exact absurd (hPos _ (List.getElem_mem hBound)) hCoin
      · rw [List.drop_eq_nil_of_le (not_lt.mp hBound), ways, if_neg hAmount.ne', Nat.cast_zero,
          Int.add_zero]
        exact ⟨dp, rfl, hMemo⟩

theorem change_from_spec (hPos : ∀ c ∈ coins, 0 < c) (hSorted : coins.Pairwise (· ≤ ·))
    (hAmount : 0 ≤ amount) (hCoin : coin ≤ coins.length) : Counts coins coin amount := by
  induction hn : amount.toNat using Nat.strongRecOn generalizing amount coin with
  | ind n ih =>
      intro dp hMemo
      rw [change_from]
      split_ifs with hZero hEnd hOnce
      · have hPositive : ∀ c ∈ coins.drop coin, 0 < c := fun c hc =>
          hPos c (List.mem_of_mem_drop hc)
        rw [hZero, ways_zero hPositive]
        exact ⟨dp, rfl, hMemo⟩
      · rw [hEnd, List.drop_length, ways, if_neg hZero]
        exact ⟨dp, rfl, hMemo⟩
      · rcases hMemo amount.toNat coin with hNone | hKnown
        · omega
        · rw [hKnown, Int.toNat_of_nonneg hAmount]
          exact ⟨dp, rfl, hMemo⟩
      · have hPositive : 0 < amount := by omega
        obtain ⟨dp', hRun, hMemo'⟩ := change_loop_spec hPos hSorted hPositive
          (fun a c ha hLt hc => ih _ (by omega) ha hc rfl) hCoin hMemo 0
        rw [Int.zero_add] at hRun
        rw [hRun]
        refine ⟨_, rfl, fun a c => ?_⟩
        by_cases hKey : a = amount.toNat ∧ c = coin
        · rw [hKey.1, hKey.2, Table.set_self, Int.toNat_of_nonneg hAmount]
          exact Or.inr rfl
        · rw [Table.set_of_ne _ (by omega)]
          exact hMemo' a c

theorem change_eq (hPos : ∀ c ∈ coins, 0 < c) (hAmount : 0 ≤ amount)
    (hInt : amount < 2 ^ 31 - 1) : change amount coins = some (ways coins amount : Int) := by
  have hSorted : ∀ c ∈ coins.mergeSort (fun a b => a ≤ b), 0 < c := fun c hc =>
    hPos c (List.mem_mergeSort.mp hc)
  obtain ⟨dp, hRun, -⟩ := change_from_spec hSorted (List.pairwise_mergeSort' _ coins) hAmount
    (Nat.zero_le _) (fun _ _ => -1) fun _ _ => Or.inl rfl
  rw [List.drop_zero, ways_perm (List.mergeSort_perm coins _)] at hRun
  rw [change, amounts_eq hAmount hInt, Option.bind_eq_bind, Option.bind_some, hRun]
  rfl

end Ways

section Rows

variable {coins dp : List Int} {amount c : Int} {size money : Nat}

/-- The entries of the row are the ways to pay with some coins. -/
def Row (coins : List Int) (size : Nat) (dp : List Int) : Prop :=
  dp.length = size ∧ ∀ a < size, dp[a]? = some (ways coins a : Int)

/-- A coin has been added, up to an amount. -/
def RowTo (c : Int) (coins : List Int) (size money : Nat) (dp : List Int) : Prop :=
  dp.length = size ∧ ∀ a < size, dp[a]? = some
    (if a < money then ways (c :: coins) a else ways coins a : Int)

theorem money_loop_spec (hc : 0 < c) (h : Row coins size dp) :
    ∃ dp', money_loop dp c = some dp' ∧ Row (c :: coins) size dp' := by
  have hStart : RowTo c coins size c.toNat dp := by
    refine ⟨h.1, fun a ha => ?_⟩
    rw [h.2 a ha]
    split_ifs with hLess
    · rw [ways_cons_of_lt (by omega)]
    · rfl
  have hStep : ∀ money dp, c.toNat ≤ money → money < c.toNat + (size - c.toNat) →
      RowTo c coins size money dp → ∃ dp', (do
        let fewer ← dp[money - c.toNat]?
        let old ← dp[money]?
        return dp.set money (old + fewer) : Option (List Int)) = some dp' ∧
        RowTo c coins size (money + 1) dp' := by
    intro money dp hLow hHigh hRow
    rw [hRow.2 (money - c.toNat) (by omega), hRow.2 money (by omega), if_pos (by omega),
      if_neg (by omega)]
    refine ⟨_, rfl, by rw [List.length_set, hRow.1], fun a ha => ?_⟩
    by_cases hSame : a = money
    · have hRest : ((money - c.toNat : Nat) : Int) = money - c := by omega
      have hBound : money < dp.length := by
        rw [hRow.1]
        omega
      have hWays : ways (c :: coins) money = _ := ways_cons hc (show c ≤ money by omega)
      rw [hSame, List.getElem?_set_self hBound, if_pos (Nat.lt_succ_self money), hRest, hWays,
        Nat.cast_add]
    · rw [List.getElem?_set_ne (Ne.symm hSame), hRow.2 a ha]
      exact congrArg some (if_congr (by omega) rfl rfl)
  obtain ⟨dp', hRun, hRow⟩ := foldlM_range'_holds c.toNat (size - c.toNat) hStep hStart
  rw [money_loop, if_neg (by omega), h.1]
  refine ⟨dp', hRun, hRow.1, fun a ha => ?_⟩
  rw [hRow.2 a ha, if_pos (by omega)]

theorem rows (hPos : ∀ c ∈ coins, 0 < c) {done : List Int} (h : Row done size dp) :
    ∃ dp', coins.foldlM money_loop dp = some dp' ∧ Row (coins.reverse ++ done) size dp' := by
  induction coins generalizing done dp with
  | nil => exact ⟨dp, rfl, h⟩
  | cons c coins ih =>
      rw [List.forall_mem_cons] at hPos
      obtain ⟨dp', hRun, hRow⟩ := money_loop_spec hPos.1 h
      obtain ⟨dp'', hRest, hRow'⟩ := ih hPos.2 hRow
      refine ⟨dp'', ?_, by simpa using hRow'⟩
      rw [List.foldlM_cons, hRun]
      exact hRest

theorem change2_eq (hPos : ∀ c ∈ coins, 0 < c) (hAmount : 0 ≤ amount)
    (hInt : amount < 2 ^ 31 - 1) : change2 amount coins = some (ways coins amount : Int) := by
  have hStart : Row [] (amount.toNat + 1) ((List.replicate (amount.toNat + 1) 0).set 0 1) := by
    refine ⟨by simp, fun a ha => ?_⟩
    rw [ways]
    cases a with
    | zero => simp
    | succ a => simp [ha]; omega
  obtain ⟨dp, hRun, hRow⟩ := rows hPos hStart
  have hLast := hRow.2 amount.toNat (Nat.lt_succ_self _)
  rw [Int.toNat_of_nonneg hAmount, List.append_nil, ways_perm (List.reverse_perm coins)] at hLast
  rw [change2, amounts_eq hAmount hInt, Option.bind_eq_bind, Option.bind_some, hRun]
  exact hLast

end Rows

section Agreement

variable {coins : List Int} {amount r r' : Int}

theorem LeastCoins.unique (h : LeastCoins coins amount r) (h' : LeastCoins coins amount r') :
    r = r' := by
  rcases h with ⟨n, rfl, hLeast⟩ | ⟨rfl, hNone⟩
  · rcases h' with ⟨m, rfl, hLeast'⟩ | ⟨-, hNone⟩
    · rw [hLeast.unique hLeast']
    · exact absurd hLeast.1 (hNone n)
  · rcases h' with ⟨m, -, hLeast'⟩ | ⟨rfl, -⟩
    · exact absurd hLeast'.1 (hNone m)
    · rfl

/-- The recursions and the loops return what they should. -/
structure Agrees (coins : List Int) (amount : Int) : Prop where
  least : ∃ r, coinChange coins amount = some r ∧ coinChange2 coins amount = some r ∧
    LeastCoins coins amount r
  ways : ∃ n : Nat, change amount coins = some (n : Int) ∧ change2 amount coins = some (n : Int) ∧
    (Uses coins amount).encard = n

end Agreement

end CppPerf.Counting.CoinChange
