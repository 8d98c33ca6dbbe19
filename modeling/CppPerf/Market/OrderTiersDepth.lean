import CppPerf.Market.OrderTiers
import Mathlib.Algebra.BigOperators.Group.List.Basic
import Mathlib.Algebra.Order.BigOperators.Group.List
import Mathlib.Algebra.Ring.Int.Defs
import Mathlib.Tactic.Linarith

/-! The tiers show the orders as long as an id is added once and the sizes at
a price add up to an `int64_t`. `add_order` with an id that is in the book
replaces the old order, but its size stays in the old tier. -/
namespace CppPerf.Market

open Ordered Transition

/-! Sums of `int64_t` that stay in range. -/

theorem toInt_add_of_lt {a b : Int64} (h : a.toInt + b.toInt < 2 ^ 63)
    (hLow : -2 ^ 63 ≤ a.toInt + b.toInt) : (a + b).toInt = a.toInt + b.toInt := by
  rw [Int64.toInt_add]
  exact Int.bmod_eq_of_le (by omega) (by omega)

theorem toInt_sub_of_le {a b : Int64} (h : b.toInt ≤ a.toInt) (hPos : 0 < b.toInt) :
    (a - b).toInt = a.toInt - b.toInt := by
  have hRange := Int64.toInt_lt a
  rw [Int64.toInt_sub]
  exact Int.bmod_eq_of_le (by omega) (by omega)

/-- The order stands on the side, at the price. -/
abbrev OrderMsg.At (buy : Bool) (price : Int) (o : OrderMsg) : Prop :=
  o.buys = buy ∧ o.price = price

def OrderMsg.weight (o : OrderMsg) (price : Int) : Int :=
  if price = o.price then o.size.toInt else 0

/-- What an order adds to a tier. -/
def OrderMsg.shown (o : OrderMsg) (buy : Bool) (price : Int) : Int :=
  if o.buys = buy then o.weight price else 0

theorem OrderMsg.shown_of_eq {o : OrderMsg} {buy : Bool} (h : o.buys = buy) (price : Int) :
    o.shown buy price = o.weight price := if_pos h

theorem OrderMsg.shown_of_ne {o : OrderMsg} {buy : Bool} (h : o.buys ≠ buy) (price : Int) :
    o.shown buy price = 0 := if_neg h

abbrev Book := OrderedMap Int OrderMsg

namespace Book

/-- The orders of a tier. -/
def tier (book : Book) (buy : Bool) (price : Int) : List OrderMsg :=
  (book.entries.map Prod.snd).filter fun o => o.At buy price

def total (book : Book) (buy : Bool) (price : Int) : Int :=
  ((book.tier buy price).map fun o => o.size.toInt).sum

variable {book : Book} {id : Int} {old : OrderMsg}

theorem total_of_perm {rest : Book} {o : OrderMsg}
    (h : book.entries.Perm ((id, o) :: rest.entries)) (buy : Bool) (price : Int) :
    book.total buy price = o.shown buy price + rest.total buy price := by
  have hTier := ((h.map Prod.snd).filter fun o => decide (o.At buy price))
  have hSum := (hTier.map fun o : OrderMsg => o.size.toInt).sum_eq
  rw [total, tier, hSum, List.map_cons, OrderMsg.shown, OrderMsg.weight]
  by_cases hAt : o.At buy price
  · rw [List.filter_cons_of_pos (by simpa using hAt), List.map_cons, List.sum_cons, if_pos hAt.1,
      if_pos hAt.2.symm]
    rfl
  · have hNone : (if o.buys = buy then if price = o.price then o.size.toInt else 0 else 0) = 0 := by
      split_ifs with hSide hPrice
      · exact absurd ⟨hSide, hPrice.symm⟩ hAt
      · rfl
      · rfl
    rw [List.filter_cons_of_neg (by simpa using hAt), hNone, zero_add]
    rfl

theorem total_set (book : Book) (id : Int) (o : OrderMsg) (buy : Bool) (price : Int) :
    Book.total (book.set id o) buy price =
      o.shown buy price + Book.total (book.erase id) buy price :=
  total_of_perm (book.perm_set id o) buy price

theorem total_of_lookup (h : book.lookup id = some old) (buy : Bool) (price : Int) :
    book.total buy price = old.shown buy price + Book.total (book.erase id) buy price :=
  total_of_perm (book.perm_of_lookup h) buy price

theorem total_of_lookup_none (h : book.lookup id = none) (buy : Bool) (price : Int) :
    Book.total (book.erase id) buy price = book.total buy price := by
  rw [total, total, tier, tier, book.erase_of_lookup_eq_none h]

section OneSide

variable {o : OrderMsg} {buy : Bool}

theorem total_set_of_eq (hSide : o.buys = buy) (price : Int) :
    Book.total (book.set id o) buy price =
      o.weight price + Book.total (book.erase id) buy price := by
  rw [total_set, OrderMsg.shown_of_eq hSide]

/-- An order does not show on the other side. -/
theorem total_set_of_ne (hSide : o.buys ≠ buy) (price : Int) :
    Book.total (book.set id o) buy price = Book.total (book.erase id) buy price := by
  rw [total_set, OrderMsg.shown_of_ne hSide, zero_add]

theorem total_of_lookup_of_eq (h : book.lookup id = some old) (hSide : old.buys = buy)
    (price : Int) :
    book.total buy price = old.weight price + Book.total (book.erase id) buy price := by
  rw [total_of_lookup h, OrderMsg.shown_of_eq hSide]

theorem total_of_lookup_of_ne (h : book.lookup id = some old) (hSide : old.buys ≠ buy)
    (price : Int) : book.total buy price = Book.total (book.erase id) buy price := by
  rw [total_of_lookup h, OrderMsg.shown_of_ne hSide, zero_add]

end OneSide

/-- Every order has a positive size. -/
def Positive (book : Book) : Prop := ∀ e ∈ book.entries, 0 < e.2.size.toInt

theorem Positive.erase (h : book.Positive) (id : Int) : Positive (book.erase id) := by
  intro e he
  exact h e ((book.mem_erase e).mp he).1

theorem Positive.set (h : book.Positive) (id : Int) {o : OrderMsg} (hPos : 0 < o.size.toInt) :
    Positive (book.set id o) := by
  intro e he
  rcases (book.mem_set e).mp he with rfl | ⟨hOld, _⟩
  · exact hPos
  · exact h e hOld

theorem Positive.of_lookup (h : book.Positive) (hOld : book.lookup id = some old) :
    0 < old.size.toInt :=
  h _ (book.lookup_eq_some_iff.mp hOld)

theorem Positive.sizes (h : book.Positive) {buy : Bool} {price : Int} :
    ∀ n ∈ (book.tier buy price).map fun o => o.size.toInt, 0 < n := by
  intro n hn
  obtain ⟨o, ho, rfl⟩ := List.mem_map.mp hn
  obtain ⟨e, he, rfl⟩ := List.mem_map.mp (List.mem_filter.mp ho).1
  exact h e he

theorem Positive.total_nonneg (h : book.Positive) (buy : Bool) (price : Int) :
    0 ≤ book.total buy price :=
  List.sum_nonneg fun n hn => (h.sizes n hn).le

/-- Only a tier without orders adds up to 0. -/
theorem Positive.total_eq_zero (h : book.Positive) {buy : Bool} {price : Int} :
    book.total buy price = 0 ↔ book.tier buy price = [] := by
  constructor
  · intro hZero
    by_contra hSome
    have hPos := List.sum_pos _ h.sizes (by simpa using hSome)
    exact hPos.ne' hZero
  · intro hNone
    rw [total, hNone]
    rfl

end Book

namespace Tier

variable {K : Type*} [LinearOrder K] {quote : OrderedMap K Int64} {k k' : K} {n : Int64}

theorem size_set (v : Int64) : size (quote.set k v) k' = if k' = k then v else size quote k' := by
  split_ifs with hKey
  · rw [hKey, size, OrderedMap.lookup_set_self, Option.getD_some]
  · rw [size, OrderedMap.lookup_set_of_ne _ _ hKey, size]

theorem size_add :
    size (add quote k n) k' = if k' = k then size quote k + n else size quote k' :=
  size_set _

theorem size_sub :
    size (sub quote k n) k' = if k' = k then size quote k - n else size quote k' :=
  size_set _

/-- Only tiers of size 0 are erased. -/
theorem size_eraseEmpty : size (eraseEmpty quote k) k' = size quote k' := by
  rw [eraseEmpty]
  split_ifs with hZero
  · by_cases hKey : k' = k
    · rw [hKey, hZero, size, OrderedMap.lookup_erase_self, Option.getD_none]
    · rw [size, OrderedMap.lookup_erase_of_ne _ hKey, size]
  · rfl

/-- No tier has size 0, except perhaps the one that is skipped. -/
def NoneEmpty (quote : OrderedMap K Int64) (skip : Option K) : Prop :=
  ∀ k, some k ≠ skip → quote.lookup k ≠ some 0

theorem NoneEmpty.sub (h : NoneEmpty quote none) (k : K) (n : Int64) :
    NoneEmpty (sub quote k n) (some k) := by
  intro k' hKey
  rw [Tier.sub, OrderedMap.lookup_set_of_ne _ _ (fun hSame => hKey (congrArg some hSame))]
  exact h k' (Option.some_ne_none k')

theorem NoneEmpty.add {skip : Option K} (h : NoneEmpty quote skip) (hNew : size quote k + n ≠ 0) :
    NoneEmpty (add quote k n) skip := by
  intro k' hKey
  by_cases hSame : k' = k
  · rw [hSame, Tier.add, OrderedMap.lookup_set_self]
    simpa using hNew
  · rw [Tier.add, OrderedMap.lookup_set_of_ne _ _ hSame]
    exact h k' hKey

theorem NoneEmpty.eraseEmpty (h : NoneEmpty quote (some k)) :
    NoneEmpty (eraseEmpty quote k) none := by
  intro k' _
  rw [Tier.eraseEmpty]
  by_cases hKey : k' = k
  · subst k'
    split_ifs with hZero
    · rw [OrderedMap.lookup_erase_self]
      exact (Option.some_ne_none 0).symm
    · intro hEmpty
      rw [size, hEmpty] at hZero
      exact hZero rfl
  · have hOther := h k' (fun hSame => hKey (Option.some.inj hSame))
    split_ifs with hZero
    · rw [OrderedMap.lookup_erase_of_ne _ hKey]
      exact hOther
    · exact hOther

end Tier

/-! One side of the book, for either order of the prices. -/
section Side

variable {K : Type*} [LinearOrder K] {key : Int → K} {quote : OrderedMap K Int64}
  {shown rest : Int → Int}

/-- The tiers have the given sizes, and no tier is empty. -/
structure Shows (key : Int → K) (quote : OrderedMap K Int64) (shown : Int → Int) : Prop where
  size_eq : ∀ price, (Tier.size quote (key price)).toInt = shown price
  noneEmpty : Tier.NoneEmpty quote none

theorem Shows.congr (h : Shows key quote shown) (hSame : ∀ price, rest price = shown price) :
    Shows key quote rest :=
  ⟨fun price => (h.size_eq price).trans (hSame price).symm, h.noneEmpty⟩

/-- The sizes after an order is taken out, wherever it is the last one. -/
theorem size_sub_eq (hKey : key.Injective) {o : OrderMsg}
    (h : ∀ price, (Tier.size quote (key price)).toInt = o.weight price + rest price)
    (hPos : 0 < o.size.toInt) (hRest : ∀ price, 0 ≤ rest price) (price : Int) :
    (Tier.size (Tier.sub quote (key o.price) o.size) (key price)).toInt = rest price := by
  rw [Tier.size_sub]
  have hSize := h price
  rw [OrderMsg.weight] at hSize
  by_cases hPrice : price = o.price
  · subst hPrice
    have hLow := hRest o.price
    rw [if_pos rfl] at hSize ⊢
    rw [toInt_sub_of_le (by omega) hPos, hSize]
    omega
  · rw [if_neg (hKey.ne hPrice), hSize, if_neg hPrice, zero_add]

/-- The sizes after an order is put in. -/
theorem size_add_eq (hKey : key.Injective) {o : OrderMsg}
    (h : ∀ price, (Tier.size quote (key price)).toInt = rest price) (hPos : 0 < o.size.toInt)
    (hRest : ∀ price, 0 ≤ rest price) (hFits : rest o.price + o.size.toInt < 2 ^ 63) (price : Int) :
    (Tier.size (Tier.add quote (key o.price) o.size) (key price)).toInt =
      o.weight price + rest price := by
  rw [Tier.size_add, OrderMsg.weight]
  have hSize := h price
  by_cases hPrice : price = o.price
  · subst hPrice
    have hLow := hRest o.price
    rw [if_pos rfl, if_pos rfl, toInt_add_of_lt (by omega) (by omega), hSize]
    omega
  · rw [if_neg (hKey.ne hPrice), hSize, if_neg hPrice, zero_add]

theorem size_add_ne_zero {o : OrderMsg}
    (h : ∀ price, (Tier.size quote (key price)).toInt = rest price) (hPos : 0 < o.size.toInt)
    (hRest : ∀ price, 0 ≤ rest price) (hFits : rest o.price + o.size.toInt < 2 ^ 63) :
    Tier.size quote (key o.price) + o.size ≠ 0 := by
  intro hZero
  have hLow := hRest o.price
  have hSum := toInt_add_of_lt (a := Tier.size quote (key o.price)) (b := o.size)
    (by rw [h]; exact hFits) (by rw [h]; omega)
  rw [hZero, h, Int64.toInt_zero] at hSum
  omega

theorem Shows.add (h : Shows key quote rest) (hKey : key.Injective) {o : OrderMsg}
    (hPos : 0 < o.size.toInt) (hRest : ∀ price, 0 ≤ rest price)
    (hFits : rest o.price + o.size.toInt < 2 ^ 63) :
    Shows key (Tier.add quote (key o.price) o.size) fun price => o.weight price + rest price :=
  ⟨size_add_eq hKey h.size_eq hPos hRest hFits,
    h.noneEmpty.add (size_add_ne_zero h.size_eq hPos hRest hFits)⟩

theorem Shows.del_tier (hKey : key.Injective) {o : OrderMsg}
    (h : Shows key quote fun price => o.weight price + rest price)
    (hPos : 0 < o.size.toInt) (hRest : ∀ price, 0 ≤ rest price) :
    Shows key (del_tier key quote o) rest := by
  refine ⟨fun price => ?_, (h.noneEmpty.sub _ _).eraseEmpty⟩
  rw [Market.del_tier, Tier.size_eraseEmpty]
  exact size_sub_eq hKey h.size_eq hPos hRest price

theorem Shows.mod_tier (hKey : key.Injective) {old o : OrderMsg}
    (h : Shows key quote fun price => old.weight price + rest price)
    (hOld : 0 < old.size.toInt) (hPos : 0 < o.size.toInt) (hRest : ∀ price, 0 ≤ rest price)
    (hFits : rest o.price + o.size.toInt < 2 ^ 63) :
    Shows key (mod_tier key quote old o) fun price => o.weight price + rest price := by
  have hTaken := size_sub_eq hKey h.size_eq hOld hRest
  refine ⟨fun price => ?_, ?_⟩
  · rw [Market.mod_tier, Tier.size_eraseEmpty]
    exact size_add_eq hKey hTaken hPos hRest hFits price
  · have hNew := size_add_ne_zero hTaken hPos hRest hFits
    exact ((h.noneEmpty.sub _ _).add hNew).eraseEmpty

end Side

/-- A tier exists exactly if it has orders, and its size is the sum of theirs. -/
def Displays (book : Book) (buy : Bool) (tier : Int → Option Int64) : Prop :=
  ∀ price, ((tier price).isSome ↔ book.tier buy price ≠ []) ∧
    ∀ size, tier price = some size → size.toInt = book.total buy price

/-- The flag is false exactly if the side has no order. Else the price is the
best one of the side, and comes with the size of its tier. -/
def Best (book : Book) (buy : Bool) (atMost : Int → Int → Prop) (best : Int × Int64 × Bool) :
    Prop :=
  (best.2.2 = false ↔ ∀ price, book.tier buy price = []) ∧
    (best.2.2 = true → book.tier buy best.1 ≠ [] ∧ best.2.1.toInt = book.total buy best.1 ∧
      ∀ price, book.tier buy price ≠ [] → atMost price best.1)

section Side

variable {K : Type*} [LinearOrder K] {key : Int → K} {quote : OrderedMap K Int64} {book : Book}
  {buy : Bool}

section Orders

variable {id : Int} {o old : OrderMsg}

theorem Shows.add_order (h : Shows key quote (book.total buy)) (hKey : key.Injective)
    (hPositive : book.Positive) (hNew : book.lookup id = none) (hPos : 0 < o.size.toInt)
    (hSide : o.buys = buy) (hFits : book.total buy o.price + o.size.toInt < 2 ^ 63) :
    Shows key (Tier.add quote (key o.price) o.size) (Book.total (book.set id o) buy) := by
  refine (h.add hKey hPos (hPositive.total_nonneg buy) hFits).congr fun price => ?_
  rw [Book.total_set_of_eq hSide, Book.total_of_lookup_none hNew]

theorem Shows.add_order_beside (h : Shows key quote (book.total buy))
    (hNew : book.lookup id = none) (hSide : o.buys ≠ buy) :
    Shows key quote (Book.total (book.set id o) buy) := by
  refine h.congr fun price => ?_
  rw [Book.total_set_of_ne hSide, Book.total_of_lookup_none hNew]

theorem Shows.modify_order (h : Shows key quote (book.total buy)) (hKey : key.Injective)
    (hPositive : book.Positive) (hOld : book.lookup id = some old) (hPos : 0 < o.size.toInt)
    (hSide : old.buys = buy)
    (hFits : Book.total (book.erase id) buy o.price + o.size.toInt < 2 ^ 63) :
    Shows key (Market.mod_tier key quote old o)
      (Book.total (book.set id { old with price := o.price, size := o.size }) buy) := by
  have hBefore := h.congr fun price => (Book.total_of_lookup_of_eq hOld hSide price).symm
  have hAfter := hBefore.mod_tier hKey (hPositive.of_lookup hOld) hPos
    ((hPositive.erase id).total_nonneg buy) hFits
  refine hAfter.congr fun price => ?_
  exact Book.total_set_of_eq (o := { old with price := o.price, size := o.size }) hSide price

theorem Shows.modify_order_beside (h : Shows key quote (book.total buy))
    (hOld : book.lookup id = some old) (hSide : old.buys ≠ buy) (o : OrderMsg) :
    Shows key quote
      (Book.total (book.set id { old with price := o.price, size := o.size }) buy) := by
  refine h.congr fun price => ?_
  rw [Book.total_of_lookup_of_ne hOld hSide]
  exact Book.total_set_of_ne (o := { old with price := o.price, size := o.size }) hSide price

theorem Shows.delete_order (h : Shows key quote (book.total buy)) (hKey : key.Injective)
    (hPositive : book.Positive) (hOld : book.lookup id = some old) (hSide : old.buys = buy) :
    Shows key (Market.del_tier key quote old) (Book.total (book.erase id) buy) := by
  have hBefore := h.congr fun price => (Book.total_of_lookup_of_eq hOld hSide price).symm
  exact hBefore.del_tier hKey (hPositive.of_lookup hOld)
    ((hPositive.erase id).total_nonneg buy)

theorem Shows.delete_order_beside (h : Shows key quote (book.total buy))
    (hOld : book.lookup id = some old) (hSide : old.buys ≠ buy) :
    Shows key quote (Book.total (book.erase id) buy) :=
  h.congr fun price => (Book.total_of_lookup_of_ne hOld hSide price).symm

end Orders

theorem Shows.displays (h : Shows key quote (book.total buy)) (hPositive : book.Positive) :
    Displays book buy fun price => quote.lookup (key price) := by
  intro price
  have hSize := h.size_eq price
  have hTotal : book.total buy price = 0 ↔ book.tier buy price = [] := hPositive.total_eq_zero
  have hNone := h.noneEmpty (key price) (Option.some_ne_none _)
  rw [Tier.size] at hSize
  cases hLookup : quote.lookup (key price) with
  | none =>
      rw [hLookup, Option.getD_none, Int64.toInt_zero] at hSize
      simp [hLookup, hTotal.mp hSize.symm]
  | some size =>
      rw [hLookup, Option.getD_some] at hSize
      have hSome : book.tier buy price ≠ [] := by
        intro hTier
        rw [hTotal.mpr hTier, ← Int64.toInt_zero] at hSize
        rw [hLookup, Int64.toInt_inj.mp hSize] at hNone
        exact hNone rfl
      have hIs : (quote.lookup (key price)).isSome := by rw [hLookup, Option.isSome_some]
      refine ⟨iff_of_true hIs hSome, fun size' hSame => ?_⟩
      rw [← Option.some.inj (hLookup.symm.trans hSame)]
      exact hSize

theorem Displays.size_eq (h : Displays book buy fun price => quote.lookup (key price))
    (price : Int) : (Tier.size quote (key price)).toInt = book.total buy price := by
  rw [Tier.size]
  cases hLookup : quote.lookup (key price) with
  | none =>
      have hTier : book.tier buy price = [] := by
        by_contra hSome
        have hIs := (h price).1.mpr hSome
        simp [hLookup] at hIs
      rw [Book.total, hTier]
      rfl
  | some size => exact (h price).2 size hLookup

/-- The first tier of the map is the best one. -/
theorem Displays.best (h : Displays book buy fun price => quote.lookup (key price))
    {price : K → Int} (hRight : ∀ k, key (price k) = k) {best : Int × Int64 × Bool}
    (hNone : quote.first = none → best = (0, 0, false))
    (hSome : ∀ e, quote.first = some e → best = (price e.1, e.2, true)) :
    Best book buy (fun p best => key best ≤ key p) best := by
  have hMem : ∀ p, book.tier buy p ≠ [] ↔ ∃ size, (key p, size) ∈ quote.entries := by
    intro p
    rw [← (h p).1, Option.isSome_iff_exists]
    exact exists_congr fun size => quote.lookup_eq_some_iff
  cases hFirst : quote.first with
  | none =>
      have hEmpty := quote.first_eq_none_iff.mp hFirst
      rw [hNone hFirst]
      refine ⟨iff_of_true rfl fun p => ?_, fun hTrue => absurd hTrue Bool.false_ne_true⟩
      by_contra hOrders
      obtain ⟨size, hIn⟩ := (hMem p).mp hOrders
      exact hEmpty _ hIn
  | some e =>
      obtain ⟨hIn, hLeast⟩ := quote.first_eq_some hFirst
      have hEntry : (key (price e.1), e.2) ∈ quote.entries := by
        rw [hRight]
        exact hIn
      have hTier := (hMem (price e.1)).mpr ⟨e.2, hEntry⟩
      rw [hSome e hFirst]
      refine ⟨⟨fun hFalse => absurd hFalse.symm Bool.false_ne_true, fun hEmpty => ?_⟩,
        fun _ => ⟨hTier, ?_, fun p hp => ?_⟩⟩
      · exact absurd (hEmpty (price e.1)) hTier
      · exact (h _).2 _ (quote.lookup_eq_some_iff.mpr hEntry)
      · obtain ⟨size, hOther⟩ := (hMem p).mp hp
        rw [hRight]
        rcases hLeast _ hOther with hSame | hAbove
        · exact (congrArg Prod.fst hSame).ge
        · exact hAbove.le

end Side

namespace OrderTiers

/-- The two maps and the two best prices show the orders of the book. -/
structure Depth (t : OrderTiers) : Prop where
  bids : Displays t.order_book true fun price => t.bids.lookup (OrderDual.toDual price)
  asks : Displays t.order_book false fun price => t.asks.lookup price
  best_bid : Best t.order_book true (fun price best => price ≤ best) t.get_best_bid
  best_ask : Best t.order_book false (fun price best => best ≤ price) t.get_best_ask

/-- An id is added only if it is not in the book, and the tier that grows fits
into an `int64_t`. -/
def Fits (t : OrderTiers) : Call → Prop
  | .add_order id order =>
      t.order_book.lookup id = none ∧
        Book.total t.order_book order.msg.buys order.msg.price + order.msg.size.toInt < 2 ^ 63
  | .modify_order id order =>
      ∀ old, t.order_book.lookup id = some old →
        Book.total (t.order_book.erase id) old.buys order.msg.price + order.msg.size.toInt < 2 ^ 63
  | .delete_order _ => True

/-- The invariant. -/
structure Sums (t : OrderTiers) : Prop where
  positive : Book.Positive t.order_book
  bids : Shows OrderDual.toDual t.bids (Book.total t.order_book true)
  asks : Shows (fun price => price) t.asks (Book.total t.order_book false)

variable {t t' : OrderTiers}

theorem Sums.depth (h : t.Sums) : t.Depth := by
  have hBids := h.bids.displays h.positive
  have hAsks := h.asks.displays h.positive
  refine ⟨hBids, hAsks, hBids.best OrderDual.toDual_ofDual ?_ ?_, hAsks.best (fun _ => rfl) ?_ ?_⟩
  · intro hNone
    rw [get_best_bid, hNone]
  · intro e hSome
    rw [get_best_bid, hSome]
  · intro hNone
    rw [get_best_ask, hNone]
  · intro e hSome
    rw [get_best_ask, hSome]

/-! What the calls do to an order of either side. -/
section Sides

variable {id : Int} {o old : OrderMsg}

theorem add_order_buy (hSide : o.buys = true) :
    t.add_order id o =
      ⟨t.order_book.set id o, Tier.add t.bids (OrderDual.toDual o.price) o.size, t.asks⟩ := by
  simp [OrderTiers.add_order, hSide]

theorem add_order_sell (hSide : o.buys = false) :
    t.add_order id o = ⟨t.order_book.set id o, t.bids, Tier.add t.asks o.price o.size⟩ := by
  simp [OrderTiers.add_order, hSide]

theorem modify_order_buy (hOld : t.order_book.lookup id = some old) (hSide : old.buys = true) :
    (t.modify_order id o).1 =
      ⟨t.order_book.set id { old with price := o.price, size := o.size },
        mod_tier OrderDual.toDual t.bids old o, t.asks⟩ := by
  simp [OrderTiers.modify_order, hOld, hSide]

theorem modify_order_sell (hOld : t.order_book.lookup id = some old) (hSide : old.buys = false) :
    (t.modify_order id o).1 =
      ⟨t.order_book.set id { old with price := o.price, size := o.size },
        t.bids, mod_tier (fun price => price) t.asks old o⟩ := by
  simp [OrderTiers.modify_order, hOld, hSide]

theorem delete_order_buy (hOld : t.order_book.lookup id = some old) (hSide : old.buys = true) :
    (t.delete_order id).1 =
      ⟨t.order_book.erase id, del_tier OrderDual.toDual t.bids old, t.asks⟩ := by
  simp [OrderTiers.delete_order, hOld, hSide]

theorem delete_order_sell (hOld : t.order_book.lookup id = some old) (hSide : old.buys = false) :
    (t.delete_order id).1 =
      ⟨t.order_book.erase id, t.bids, del_tier (fun price => price) t.asks old⟩ := by
  simp [OrderTiers.delete_order, hOld, hSide]

end Sides

theorem Sums.add_order (h : t.Sums) {id : Int} {o : OrderMsg} (hPos : 0 < o.size.toInt)
    (hNew : t.order_book.lookup id = none)
    (hFits : Book.total t.order_book o.buys o.price + o.size.toInt < 2 ^ 63) :
    (t.add_order id o).Sums := by
  have hPositive := h.positive.set id hPos
  cases hSide : o.buys with
  | true =>
      rw [hSide] at hFits
      rw [add_order_buy hSide]
      have hBids := h.bids.add_order OrderDual.toDual.injective h.positive hNew hPos hSide hFits
      have hAsks := h.asks.add_order_beside hNew (ne_false_of_eq_true hSide)
      exact ⟨hPositive, hBids, hAsks⟩
  | false =>
      rw [hSide] at hFits
      rw [add_order_sell hSide]
      have hBids := h.bids.add_order_beside hNew (ne_true_of_eq_false hSide)
      have hAsks := h.asks.add_order Function.injective_id h.positive hNew hPos hSide hFits
      exact ⟨hPositive, hBids, hAsks⟩

theorem Sums.modify_order (h : t.Sums) {id : Int} {o old : OrderMsg} (hPos : 0 < o.size.toInt)
    (hOld : t.order_book.lookup id = some old)
    (hFits : Book.total (t.order_book.erase id) old.buys o.price + o.size.toInt < 2 ^ 63) :
    (t.modify_order id o).1.Sums := by
  have hPositive :
      Book.Positive (t.order_book.set id { old with price := o.price, size := o.size }) :=
    h.positive.set id hPos
  cases hSide : old.buys with
  | true =>
      rw [hSide] at hFits
      rw [modify_order_buy hOld hSide]
      have hBids := h.bids.modify_order OrderDual.toDual.injective h.positive hOld hPos hSide hFits
      have hAsks := h.asks.modify_order_beside hOld (ne_false_of_eq_true hSide) o
      exact ⟨hPositive, hBids, hAsks⟩
  | false =>
      rw [hSide] at hFits
      rw [modify_order_sell hOld hSide]
      have hBids := h.bids.modify_order_beside hOld (ne_true_of_eq_false hSide) o
      have hAsks := h.asks.modify_order Function.injective_id h.positive hOld hPos hSide hFits
      exact ⟨hPositive, hBids, hAsks⟩

theorem Sums.delete_order (h : t.Sums) {id : Int} {old : OrderMsg}
    (hOld : t.order_book.lookup id = some old) : (t.delete_order id).1.Sums := by
  have hPositive := h.positive.erase id
  cases hSide : old.buys with
  | true =>
      rw [delete_order_buy hOld hSide]
      have hBids := h.bids.delete_order OrderDual.toDual.injective h.positive hOld hSide
      have hAsks := h.asks.delete_order_beside hOld (ne_false_of_eq_true hSide)
      exact ⟨hPositive, hBids, hAsks⟩
  | false =>
      rw [delete_order_sell hOld hSide]
      have hBids := h.bids.delete_order_beside hOld (ne_true_of_eq_false hSide)
      have hAsks := h.asks.delete_order Function.injective_id h.positive hOld hSide
      exact ⟨hPositive, hBids, hAsks⟩

theorem Sums.step (h : t.Sums) {call : Call} (hGuard : t.Fits call)
    (hStep : t.step call = some t') : t'.Sums := by
  cases call with
  | add_order id order =>
      obtain rfl := Option.some.inj hStep
      exact h.add_order order.positive hGuard.1 hGuard.2
  | modify_order id order =>
      obtain rfl := Option.some.inj hStep
      cases hOld : t.order_book.lookup id with
      | none =>
          rw [OrderTiers.modify_order, hOld]
          exact h
      | some old => exact h.modify_order order.positive hOld (hGuard old hOld)
  | delete_order id =>
      obtain rfl := Option.some.inj hStep
      cases hOld : t.order_book.lookup id with
      | none =>
          rw [OrderTiers.delete_order, hOld]
          exact h
      | some old => exact h.delete_order hOld

/-- The size shown at a price. -/
def tierSize (t : OrderTiers) (buy : Bool) (price : Int) : Int64 :=
  if buy then Tier.size t.bids (OrderDual.toDual price) else Tier.size t.asks price

theorem Depth.tierSize_eq (h : t.Depth) (buy : Bool) (price : Int) :
    (t.tierSize buy price).toInt = Book.total t.order_book buy price := by
  cases buy with
  | true => exact h.bids.size_eq price
  | false => exact h.asks.size_eq price

/-- The tier that another order leaves is not touched. -/
theorem tierSize_add_order (id : Int) (o : OrderMsg) (buy : Bool) (price : Int) :
    (t.add_order id o).tierSize buy price =
      if o.At buy price then t.tierSize buy price + o.size else t.tierSize buy price := by
  rcases Bool.eq_false_or_eq_true o.buys with hSide | hSide
  · rw [add_order_buy hSide]
    cases buy with
    | true =>
        simp only [tierSize, if_true, OrderMsg.At, hSide, true_and, Tier.size_add]
        by_cases hPrice : price = o.price
        · rw [hPrice, if_pos rfl, if_pos rfl]
        · rw [if_neg (OrderDual.toDual.injective.ne hPrice), if_neg (Ne.symm hPrice)]
    | false => simp [tierSize, OrderMsg.At, hSide]
  · rw [add_order_sell hSide]
    cases buy with
    | true => simp [tierSize, OrderMsg.At, hSide]
    | false =>
        simp only [tierSize, Bool.false_eq_true, if_false, OrderMsg.At, hSide, true_and,
          Tier.size_add]
        by_cases hPrice : price = o.price
        · rw [hPrice, if_pos rfl]
        · rw [if_neg hPrice, if_neg (Ne.symm hPrice)]

theorem order_book_add_order (id : Int) (o : OrderMsg) :
    (t.add_order id o).order_book = t.order_book.set id o := by
  cases hSide : o.buys with
  | true => rw [add_order_buy hSide]
  | false => rw [add_order_sell hSide]

theorem order_book_modify_order {id : Int} {o old : OrderMsg}
    (hOld : t.order_book.lookup id = some old) :
    (t.modify_order id o).1.order_book =
      t.order_book.set id { old with price := o.price, size := o.size } := by
  cases hSide : old.buys with
  | true => rw [modify_order_buy hOld hSide]
  | false => rw [modify_order_sell hOld hSide]

/-- The size of the order that is replaced stays in its tier. -/
theorem Sums.not_depth_of_live (h : t.Sums) {id : Int} {o old : OrderMsg}
    (hOld : t.order_book.lookup id = some old) : ¬(t.add_order id o).Depth := by
  intro hDepth
  have hBefore := h.depth.tierSize_eq old.buys old.price
  have hAfter := hDepth.tierSize_eq old.buys old.price
  rw [tierSize_add_order, order_book_add_order, Book.total_set t.order_book] at hAfter
  rw [Book.total_of_lookup_of_eq hOld rfl, OrderMsg.weight, if_pos rfl] at hBefore
  have hPos := h.positive.of_lookup hOld
  have hRange := Int64.toInt_lt old.size
  by_cases hAt : o.At old.buys old.price
  · rw [if_pos hAt, OrderMsg.shown_of_eq hAt.1, OrderMsg.weight, if_pos hAt.2.symm,
      Int64.toInt_add, Int.bmod_def, hBefore] at hAfter
    split_ifs at hAfter <;> omega
  · have hNone : o.shown old.buys old.price = 0 := by
      by_cases hSide : o.buys = old.buys
      · rw [OrderMsg.shown_of_eq hSide, OrderMsg.weight]
        exact if_neg fun hPrice => hAt ⟨hSide, hPrice.symm⟩
      · exact OrderMsg.shown_of_ne hSide _
    rw [if_neg hAt, hNone, hBefore] at hAfter
    omega

/-- A tier cannot show more than an `int64_t`. -/
theorem Depth.total_lt (h : t.Depth) (buy : Bool) (price : Int) :
    Book.total t.order_book buy price < 2 ^ 63 := by
  rw [← h.tierSize_eq]
  exact Int64.toInt_lt _

theorem Sums.not_depth (h : t.Sums) {call : Call} (hBad : ¬t.Fits call)
    (hStep : t.step call = some t') : ¬t'.Depth := by
  intro hDepth
  apply hBad
  cases call with
  | add_order id order =>
      obtain rfl := Option.some.inj hStep
      cases hOld : t.order_book.lookup id with
      | some old => exact absurd hDepth (h.not_depth_of_live hOld)
      | none =>
          refine ⟨hOld, ?_⟩
          have hTotal := hDepth.total_lt order.msg.buys order.msg.price
          rw [order_book_add_order, Book.total_set_of_eq rfl, Book.total_of_lookup_none hOld,
            OrderMsg.weight, if_pos rfl] at hTotal
          omega
  | modify_order id order =>
      obtain rfl := Option.some.inj hStep
      intro old hOld
      let new : OrderMsg := { old with price := order.msg.price, size := order.msg.size }
      have hSide : new.buys = old.buys := rfl
      have hWeight : new.weight order.msg.price = order.msg.size.toInt := if_pos rfl
      have hTotal := hDepth.total_lt old.buys order.msg.price
      rw [order_book_modify_order hOld, Book.total_set_of_eq hSide, hWeight] at hTotal
      exact (Int.add_comm _ _).trans_lt hTotal
  | delete_order id => exact trivial

theorem empty_sums : empty.Sums := by
  refine ⟨fun e he => absurd he List.not_mem_nil, ⟨fun _ => rfl, ?_⟩, ⟨fun _ => rfl, ?_⟩⟩
  · intro k _ hSome
    cases hSome
  · intro k _ hSome
    cases hSome

/-- The book is right throughout a run if and only if no id is added twice
and all tiers fit. -/
theorem depth_iff_fits (calls : List Call) :
    Always step Depth empty calls ↔ Guarded step Fits empty calls := by
  have hTotal : ∀ (t : OrderTiers) (call : Call), (t.step call).isSome := by
    intro t call
    cases call <;> rfl
  obtain ⟨finish, hRun⟩ := run_of_total hTotal empty calls
  exact always_iff_guarded Sums (fun _ _ _ h hGuard hStep => h.step hGuard hStep)
    (fun _ h => h.depth) (fun _ _ _ h hBad hStep => h.not_depth hBad hStep) empty_sums hRun

def buyAt (price : Int) : Order := ⟨⟨price, 100, 'B'⟩, (by decide : 0 < (100 : Int64).toInt)⟩

/-- The id is added again at another price. Both tiers are shown. -/
theorem added_again_shown_twice :
    ∃ t, run step empty [.add_order 1 (buyAt 50), .add_order 1 (buyAt 40)] = some t ∧
      t.get_best_bid = (50, 100, true) ∧ Book.tier t.order_book true 50 = [] ∧ ¬t.Depth := by
  have hFinish : ∃ t, run step empty [.add_order 1 (buyAt 50), .add_order 1 (buyAt 40)] = some t ∧
      t.get_best_bid = (50, 100, true) ∧ Book.tier t.order_book true 50 = [] :=
    ⟨_, rfl, rfl, rfl⟩
  obtain ⟨t, hRun, hBest, hTier⟩ := hFinish
  refine ⟨t, hRun, hBest, hTier, fun hDepth => ?_⟩
  have hReal := (hDepth.best_bid.2 (by rw [hBest])).1
  rw [hBest] at hReal
  exact hReal hTier

end OrderTiers
end CppPerf.Market
