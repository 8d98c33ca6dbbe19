import CppPerf.Semantics.OrderedMap
import CppPerf.Semantics.Run
import CppPerf.Text.Parsing
import Mathlib.Data.Char
import Mathlib.Data.Int.Order.Basic
import Mathlib.Data.List.Lex
import Mathlib.Order.OrderDual

/-! The book of quotes `RegionalBook` of `DataFeed.cpp`. For its display the
quotes of a symbol are entered in two maps by price, so exchanges with the same
price share an entry. -/
namespace CppPerf.Market

open Ordered Transition CppPerf.Text

structure Quote where
  bid : Int
  ask : Int

/-- The quotes by exchange, for each symbol. -/
structure RegionalBook where
  book : OrderedMap (List Char) (OrderedMap (List Char) Quote) := OrderedMap.empty

/-- A line of the display. -/
structure Row where
  bidExchange : List Char
  bid : Int
  ask : Int
  askExchange : List Char

namespace RegionalBook

/-- `book[symbol][exchange] = quote`. -/
def enter (b : RegionalBook) (symbol exchange : List Char) (quote : Quote) : RegionalBook :=
  ⟨b.book.set symbol (((b.book.lookup symbol).getD OrderedMap.empty).set exchange quote)⟩

/-- `none` is a token that is missing, or an exception of `stoi`. -/
def update_message : Step RegionalBook (List Char) := fun b msg => do
  let parsed := get_tokens msg '|'
  let kind ← parsed[0]?
  if kind ≠ ['Q'] then some b
  else do
    let symbol ← parsed[2]?
    let exchange ← parsed[1]?
    let bid ← parsed[3]?
    let bid ← stoi bid
    let ask ← parsed[4]?
    let ask ← stoi ask
    some (b.enter symbol exchange ⟨bid, ask⟩)

/-- The loop over the exchanges: a map of the bids, the greatest first, and a
map of the asks. -/
def sides (quotes : OrderedMap (List Char) Quote) :
    OrderedMap (OrderDual Int) (List Char) × OrderedMap Int (List Char) :=
  quotes.entries.foldl
    (fun (bids, asks) ex =>
      (bids.set (OrderDual.toDual ex.2.bid) ex.1, asks.set ex.2.ask ex.1))
    (OrderedMap.empty, OrderedMap.empty)

/-- The loop over the bids. `none` is a read behind the end of the asks. -/
def rows : List (OrderDual Int × List Char) → List (Int × List Char) → Option (List Row)
  | [], _ => some []
  | _ :: _, [] => none
  | b :: bids, a :: asks =>
      (rows bids asks).map fun rest => ⟨b.2, OrderDual.ofDual b.1, a.1, a.2⟩ :: rest

/-- The rows of each symbol. -/
def displayed (b : RegionalBook) : Option (List (List Char × List Row)) :=
  b.book.entries.mapM fun sym =>
    let (bids, asks) := sides sym.2
    (rows bids.entries asks.entries).map fun lines => (sym.1, lines)

def Row.text (r : Row) : List Char :=
  r.bidExchange ++ ' ' :: to_string r.bid ++ ' ' :: to_string r.ask ++ ' ' :: r.askExchange ++
    ['\n']

/-- The output of `display`. -/
def display (b : RegionalBook) : Option (List Char) :=
  b.displayed.map fun symbols => symbols.flatMap fun (symbol, lines) =>
    ['S', 'y', 'm', 'b', 'o', 'l', ':', ' '] ++ symbol ++ ['\n'] ++ lines.flatMap Row.text

end RegionalBook

/-! When the display is complete. Every exchange needs prices of its own: equal
bids share a row, and equal asks leave bids without a partner. -/

/-- Every exchange's bid is listed in descending and its ask in ascending order. -/
structure Listing (quotes : OrderedMap (List Char) Quote) (lines : List Row) : Prop where
  bids_perm : (lines.map fun r => (r.bidExchange, r.bid)).Perm
    (quotes.entries.map fun e => (e.1, e.2.bid))
  bids_sorted : (lines.map Row.bid).Pairwise (· ≥ ·)
  asks_perm : (lines.map fun r => (r.askExchange, r.ask)).Perm
    (quotes.entries.map fun e => (e.1, e.2.ask))
  asks_sorted : (lines.map Row.ask).Pairwise (· ≤ ·)

/-- The display is written, with a listing for each symbol. -/
def Complete (b : RegionalBook) : Prop :=
  ∃ symbols, b.displayed = some symbols ∧
    List.Forall₂ (fun sym s => s.1 = sym.1 ∧ Listing sym.2 s.2) b.book.entries symbols

/-- No two exchanges have the same bid or the same ask. -/
def PricesApart (quotes : OrderedMap (List Char) Quote) : Prop :=
  (quotes.entries.map fun e => e.2.bid).Nodup ∧ (quotes.entries.map fun e => e.2.ask).Nodup

section Lists

variable {α β γ δ : Type*}

theorem map_zipWith_left {f : α → β → γ} {g : γ → δ} {h : α → δ} (hg : ∀ a b, g (f a b) = h a)
    (l : List α) (l' : List β) (hLength : l.length ≤ l'.length) :
    (List.zipWith f l l').map g = l.map h := by
  induction l generalizing l' with
  | nil => rfl
  | cons a l ih =>
      cases l' with
      | nil => simp at hLength
      | cons b l' =>
          rw [List.zipWith_cons_cons, List.map_cons, List.map_cons, hg,
            ih l' (by simpa using hLength)]

theorem map_zipWith_right {f : α → β → γ} {g : γ → δ} {h : β → δ} (hg : ∀ a b, g (f a b) = h b)
    (l : List α) (l' : List β) (hLength : l'.length ≤ l.length) :
    (List.zipWith f l l').map g = l'.map h := by
  rw [List.zipWith_comm]
  exact map_zipWith_left (fun b a => hg a b) l' l hLength

/-- A traversal succeeds where every element does. -/
theorem exists_mapM_iff (f : α → Option β) (P : α → β → Prop) (l : List α) :
    (∃ l', l.mapM f = some l' ∧ List.Forall₂ P l l') ↔ ∀ a ∈ l, ∃ b, f a = some b ∧ P a b := by
  induction l with
  | nil => simp
  | cons a l ih =>
      rw [List.forall_mem_cons, ← ih]
      simp only [List.mapM_cons, Option.bind_eq_bind, Option.bind_eq_some_iff, Option.pure_def,
        Option.some.injEq]
      constructor
      · rintro ⟨l', ⟨b, hb, rest, hRest, rfl⟩, hForall⟩
        cases hForall with
        | cons hP hTail => exact ⟨⟨b, hb, hP⟩, rest, hRest, hTail⟩
      · rintro ⟨⟨b, hb, hP⟩, rest, hRest, hTail⟩
        exact ⟨b :: rest, ⟨b, hb, rest, hRest, rfl⟩, List.Forall₂.cons hP hTail⟩

end Lists

namespace RegionalBook

/-- Each side is filled with one entry for each exchange. -/
theorem sides_eq (quotes : OrderedMap (List Char) Quote) :
    sides quotes =
      (OrderedMap.ofList (quotes.entries.map fun e => (OrderDual.toDual e.2.bid, e.1)),
        OrderedMap.ofList (quotes.entries.map fun e => (e.2.ask, e.1))) := by
  rw [sides]
  induction quotes.entries using List.reverseRecOn with
  | nil => rfl
  | append_singleton l e ih =>
      rw [List.foldl_append, ih, List.map_append, List.map_append, List.map_singleton,
        List.map_singleton, OrderedMap.ofList_append_singleton,
        OrderedMap.ofList_append_singleton]
      rfl

/-- The row of a bid and an ask. -/
def rowOf (b : OrderDual Int × List Char) (a : Int × List Char) : Row :=
  ⟨b.2, OrderDual.ofDual b.1, a.1, a.2⟩

theorem rows_eq (bids : List (OrderDual Int × List Char)) (asks : List (Int × List Char)) :
    rows bids asks =
      if bids.length ≤ asks.length then some (List.zipWith rowOf bids asks) else none := by
  induction bids generalizing asks with
  | nil => simp [rows]
  | cons b bids ih =>
      cases asks with
      | nil => simp [rows]
      | cons a asks =>
          rw [rows, ih]
          simp only [List.length_cons, Nat.add_le_add_iff_right, List.zipWith_cons_cons]
          split_ifs <;> rfl

/-- Two sides of the same length, each with the prices of all exchanges. -/
theorem listing_zipWith {quotes : OrderedMap (List Char) Quote}
    (bids : OrderedMap (OrderDual Int) (List Char)) (asks : OrderedMap Int (List Char))
    (hSame : bids.entries.length = asks.entries.length)
    (hBids : (bids.entries.map fun b => (b.2, OrderDual.ofDual b.1)).Perm
      (quotes.entries.map fun e => (e.1, e.2.bid)))
    (hAsks : (asks.entries.map fun a => (a.2, a.1)).Perm
      (quotes.entries.map fun e => (e.1, e.2.ask))) :
    Listing quotes (List.zipWith rowOf bids.entries asks.entries) where
  bids_perm := by
    have hColumn : (List.zipWith rowOf bids.entries asks.entries).map
        (fun r => (r.bidExchange, r.bid)) =
          bids.entries.map fun b => (b.2, OrderDual.ofDual b.1) := by
      apply map_zipWith_left ?_ _ _ hSame.le
      exact fun _ _ => rfl
    rw [hColumn]
    exact hBids
  bids_sorted := by
    have hPrices : (List.zipWith rowOf bids.entries asks.entries).map Row.bid =
        bids.entries.map fun b => OrderDual.ofDual b.1 := by
      apply map_zipWith_left ?_ _ _ hSame.le
      exact fun _ _ => rfl
    rw [hPrices, List.pairwise_map]
    exact bids.sorted.imp fun hLt => le_of_lt hLt
  asks_perm := by
    have hColumn : (List.zipWith rowOf bids.entries asks.entries).map
        (fun r => (r.askExchange, r.ask)) = asks.entries.map fun a => (a.2, a.1) := by
      apply map_zipWith_right ?_ _ _ hSame.ge
      exact fun _ _ => rfl
    rw [hColumn]
    exact hAsks
  asks_sorted := by
    have hPrices : (List.zipWith rowOf bids.entries asks.entries).map Row.ask =
        asks.entries.map fun a => a.1 := by
      apply map_zipWith_right ?_ _ _ hSame.ge
      exact fun _ _ => rfl
    rw [hPrices, List.pairwise_map]
    exact asks.sorted.imp fun hLt => le_of_lt hLt

theorem listing_iff (quotes : OrderedMap (List Char) Quote) :
    (∃ lines, rows (sides quotes).1.entries (sides quotes).2.entries = some lines ∧
      Listing quotes lines) ↔ PricesApart quotes := by
  have hBidKeys := OrderedMap.length_ofList_eq_iff
    (quotes.entries.map fun e => (OrderDual.toDual e.2.bid, e.1))
  have hAskKeys := OrderedMap.length_ofList_eq_iff (quotes.entries.map fun e => (e.2.ask, e.1))
  have hAskLe := OrderedMap.length_ofList_le (quotes.entries.map fun e => (e.2.ask, e.1))
  rw [List.length_map, List.map_map] at hBidKeys hAskKeys
  rw [List.length_map] at hAskLe
  simp only [sides_eq, rows_eq]
  constructor
  · rintro ⟨lines, hRows, hListing⟩
    obtain ⟨hLe, hLines⟩ := of_ite_eq_some hRows
    have hLength := hListing.bids_perm.length_eq
    rw [List.length_map, List.length_map, ← hLines, List.length_zipWith,
      Nat.min_eq_left hLe] at hLength
    exact ⟨hBidKeys.mp hLength, hAskKeys.mp (by omega)⟩
  · rintro ⟨hBids, hAsks⟩
    have hSame := (hBidKeys.mpr hBids).trans (hAskKeys.mpr hAsks).symm
    have hBidPerm := (OrderedMap.perm_ofList
      (l := quotes.entries.map fun e => (OrderDual.toDual e.2.bid, e.1))
      (by rw [List.map_map]; exact hBids)).map fun b => (b.2, OrderDual.ofDual b.1)
    have hAskPerm := (OrderedMap.perm_ofList (l := quotes.entries.map fun e => (e.2.ask, e.1))
      (by rw [List.map_map]; exact hAsks)).map fun a => (a.2, a.1)
    rw [List.map_map] at hBidPerm hAskPerm
    rw [if_pos hSame.le]
    exact ⟨_, rfl, listing_zipWith _ _ hSame hBidPerm hAskPerm⟩

theorem complete_iff (b : RegionalBook) :
    Complete b ↔ ∀ sym ∈ b.book.entries, PricesApart sym.2 := by
  rw [Complete, displayed, exists_mapM_iff]
  apply forall₂_congr
  intro sym _
  rw [← listing_iff]
  simp only [Option.map_eq_some_iff]
  constructor
  · rintro ⟨_, ⟨lines, hRows, rfl⟩, _, hListing⟩
    exact ⟨lines, hRows, hListing⟩
  · rintro ⟨lines, hRows, hListing⟩
    exact ⟨_, ⟨lines, hRows, rfl⟩, rfl, hListing⟩

/-- The quote of an exchange for a symbol. -/
def quoteOf (b : RegionalBook) (symbol exchange : List Char) : Option Quote :=
  (b.book.lookup symbol).bind fun quotes => quotes.lookup exchange

theorem quoteOf_enter (b : RegionalBook) (symbol exchange symbol' exchange' : List Char)
    (quote : Quote) :
    (b.enter symbol exchange quote).quoteOf symbol' exchange' =
      if symbol = symbol' ∧ exchange = exchange' then some quote
      else b.quoteOf symbol' exchange' := by
  rw [quoteOf, enter]
  by_cases hSymbol : symbol' = symbol
  · subst hSymbol
    rw [OrderedMap.lookup_set_self, Option.bind_some]
    by_cases hExchange : exchange' = exchange
    · subst hExchange
      rw [OrderedMap.lookup_set_self, if_pos ⟨rfl, rfl⟩]
    · rw [OrderedMap.lookup_set_of_ne _ _ hExchange,
        if_neg fun h => hExchange h.2.symm, quoteOf]
      cases b.book.lookup symbol' with
      | none => rfl
      | some quotes => rfl
  · rw [OrderedMap.lookup_set_of_ne _ _ hSymbol, if_neg fun h => hSymbol h.1.symm, quoteOf]

/-- The prices are apart if two quotes of different exchanges always are. -/
theorem pricesApart_iff (b : RegionalBook) :
    (∀ sym ∈ b.book.entries, PricesApart sym.2) ↔
      ∀ symbol exchange exchange' q q', b.quoteOf symbol exchange = some q →
        b.quoteOf symbol exchange' = some q' → exchange ≠ exchange' →
        q.bid ≠ q'.bid ∧ q.ask ≠ q'.ask := by
  simp only [PricesApart, quoteOf, Option.bind_eq_some_iff, OrderedMap.lookup_eq_some_iff]
  constructor
  · rintro h symbol exchange exchange' q q' ⟨quotes, hQuotes, hq⟩ ⟨quotes', hQuotes', hq'⟩ hNe
    obtain rfl : quotes = quotes' := congrArg Prod.snd (b.book.eq_of_mem hQuotes hQuotes' rfl)
    obtain ⟨hBids, hAsks⟩ := h _ hQuotes
    constructor
    · intro hSame
      exact hNe (congrArg Prod.fst (List.inj_on_of_nodup_map hBids hq hq' hSame))
    · intro hSame
      exact hNe (congrArg Prod.fst (List.inj_on_of_nodup_map hAsks hq hq' hSame))
  · rintro h ⟨symbol, quotes⟩ hQuotes
    constructor
    · rw [List.nodup_map_iff_inj_on quotes.nodup_entries]
      intro e he e' he' hSame
      by_contra hNe
      have hKey : e.1 ≠ e'.1 := fun hKey => hNe (quotes.eq_of_mem he he' hKey)
      exact (h symbol e.1 e'.1 e.2 e'.2 ⟨quotes, hQuotes, he⟩ ⟨quotes, hQuotes, he'⟩ hKey).1 hSame
    · rw [List.nodup_map_iff_inj_on quotes.nodup_entries]
      intro e he e' he' hSame
      by_contra hNe
      have hKey : e.1 ≠ e'.1 := fun hKey => hNe (quotes.eq_of_mem he he' hKey)
      exact (h symbol e.1 e'.1 e.2 e'.2 ⟨quotes, hQuotes, he⟩ ⟨quotes, hQuotes, he'⟩ hKey).2 hSame

end RegionalBook

/-- What a well-formed message says. -/
structure Entry where
  exchange : List Char
  symbol : List Char
  quote : Quote

/-- The tokens of a message of kind `Q`. -/
def Says (msg : List Char) (e : Entry) : Prop :=
  ∃ bid ask rest, get_tokens msg '|' = ['Q'] :: e.exchange :: e.symbol :: bid :: ask :: rest ∧
    stoi bid = some e.quote.bid ∧ stoi ask = some e.quote.ask

/-- The last quote of an exchange for a symbol. -/
def latest (entries : List Entry) (symbol exchange : List Char) : Option Quote :=
  (entries.reverse.find? fun e => e.symbol = symbol ∧ e.exchange = exchange).map Entry.quote

namespace RegionalBook

theorem update_message_says (b : RegionalBook) {msg : List Char} {e : Entry} (h : Says msg e) :
    update_message b msg = some (b.enter e.symbol e.exchange e.quote) := by
  obtain ⟨bid, ask, rest, hTokens, hBid, hAsk⟩ := h
  simp [update_message, hTokens, hBid, hAsk]

theorem run_says (b : RegionalBook) {msgs : List (List Char)} {entries : List Entry}
    (h : List.Forall₂ Says msgs entries) :
    run update_message b msgs =
      some (entries.foldl (fun (b : RegionalBook) e => b.enter e.symbol e.exchange e.quote) b) := by
  induction h generalizing b with
  | nil => rfl
  | cons hSays _ ih => rw [run_cons, update_message_says b hSays, Option.bind_some, ih,
      List.foldl_cons]

theorem quoteOf_foldl (entries : List Entry) (symbol exchange : List Char) :
    (entries.foldl (fun (b : RegionalBook) e => b.enter e.symbol e.exchange e.quote) {}).quoteOf
      symbol exchange = latest entries symbol exchange := by
  induction entries using List.reverseRecOn with
  | nil => rfl
  | append_singleton entries e ih =>
      rw [List.foldl_append, List.foldl_cons, List.foldl_nil, quoteOf_enter, ih, latest, latest,
        List.reverse_append, List.reverse_singleton, List.singleton_append, List.find?_cons]
      by_cases hSame : e.symbol = symbol ∧ e.exchange = exchange
      · rw [if_pos hSame]
        simp [hSame]
      · rw [if_neg hSame]
        simp [hSame]

/-- The display is complete exactly if no two exchanges have the same bid or the
same ask for a symbol. -/
theorem display_complete_iff {msgs : List (List Char)} {entries : List Entry}
    (h : List.Forall₂ Says msgs entries) :
    ∃ b, run update_message {} msgs = some b ∧
      (∀ symbol exchange, b.quoteOf symbol exchange = latest entries symbol exchange) ∧
      (Complete b ↔
        ∀ symbol exchange exchange' q q', latest entries symbol exchange = some q →
          latest entries symbol exchange' = some q' → exchange ≠ exchange' →
          q.bid ≠ q'.bid ∧ q.ask ≠ q'.ask) := by
  refine ⟨_, run_says {} h, quoteOf_foldl entries, ?_⟩
  rw [complete_iff, pricesApart_iff]
  simp only [quoteOf_foldl]

/-- The message `Q|A|X|1|2`. -/
theorem display_complete_iff_single :
    ∃ b, run update_message {} [['Q', '|', 'A', '|', 'X', '|', '1', '|', '2']] = some b ∧
      (∀ symbol exchange, b.quoteOf symbol exchange =
        latest [⟨['A'], ['X'], ⟨1, 2⟩⟩] symbol exchange) ∧
      (Complete b ↔
        ∀ symbol exchange exchange' q q',
          latest [⟨['A'], ['X'], ⟨1, 2⟩⟩] symbol exchange = some q →
          latest [⟨['A'], ['X'], ⟨1, 2⟩⟩] symbol exchange' = some q' → exchange ≠ exchange' →
          q.bid ≠ q'.bid ∧ q.ask ≠ q'.ask) :=
  display_complete_iff (.cons ⟨['1'], ['2'], [], by decide, by decide, by decide⟩ .nil)

/-- Two exchanges with the same ask: `Q|A|X|1|3` and `Q|B|X|2|3`. -/
theorem display_reads_past_end :
    (run update_message {} [['Q', '|', 'A', '|', 'X', '|', '1', '|', '3'],
      ['Q', '|', 'B', '|', 'X', '|', '2', '|', '3']]).map display = some none := by
  decide +kernel

end RegionalBook
end CppPerf.Market
