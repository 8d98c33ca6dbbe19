import CppPerf.Semantics.OrderedMap
import CppPerf.Semantics.Run
import Mathlib.Data.Int.Order.Basic
import Mathlib.Order.OrderDual

/-! The depth book `OrderTiers` of `DataFeed.cpp`. An order adds its size to
the tier of its price. `order_book` is searched by id only, so the order of its
entries does not matter. The bids start with the greatest price. -/
namespace CppPerf.Market

open Ordered

structure OrderMsg where
  price : Int
  size : Int64
  side : Char

def OrderMsg.buys (o : OrderMsg) : Bool := o.side = 'B'

structure OrderTiers where
  order_book : OrderedMap Int OrderMsg
  bids : OrderedMap (OrderDual Int) Int64
  asks : OrderedMap Int Int64

namespace Tier

variable {K : Type*} [LinearOrder K]

/-- What `quote[k]` refers to. A missing tier is created with size 0. -/
def size (quote : OrderedMap K Int64) (k : K) : Int64 := (quote.lookup k).getD 0

def add (quote : OrderedMap K Int64) (k : K) (n : Int64) : OrderedMap K Int64 :=
  quote.set k (size quote k + n)

def sub (quote : OrderedMap K Int64) (k : K) (n : Int64) : OrderedMap K Int64 :=
  quote.set k (size quote k - n)

def eraseEmpty (quote : OrderedMap K Int64) (k : K) : OrderedMap K Int64 :=
  if size quote k = 0 then quote.erase k else quote

end Tier

section Lambdas

variable {K : Type*} [LinearOrder K] (key : Int → K)

/-- The old tier is looked at only after the new one has grown. -/
def mod_tier (quote : OrderedMap K Int64) (original modify : OrderMsg) : OrderedMap K Int64 :=
  let quote := Tier.sub quote (key original.price) original.size
  Tier.eraseEmpty (Tier.add quote (key modify.price) modify.size) (key original.price)

def del_tier (quote : OrderedMap K Int64) (original : OrderMsg) : OrderedMap K Int64 :=
  Tier.eraseEmpty (Tier.sub quote (key original.price) original.size) (key original.price)

end Lambdas

namespace OrderTiers

def empty : OrderTiers := ⟨.empty, .empty, .empty⟩

def add_order (t : OrderTiers) (id : Int) (order : OrderMsg) : OrderTiers :=
  let book := t.order_book.set id order
  if order.buys then ⟨book, Tier.add t.bids (OrderDual.toDual order.price) order.size, t.asks⟩
  else ⟨book, t.bids, Tier.add t.asks order.price order.size⟩

def modify_order (t : OrderTiers) (id : Int) (order : OrderMsg) : OrderTiers × Bool :=
  match t.order_book.lookup id with
  | none => (t, false)
  | some old =>
      let book := t.order_book.set id { old with price := order.price, size := order.size }
      if old.buys then (⟨book, mod_tier OrderDual.toDual t.bids old order, t.asks⟩, true)
      else (⟨book, t.bids, mod_tier (fun p => p) t.asks old order⟩, true)

def delete_order (t : OrderTiers) (id : Int) : OrderTiers × Bool :=
  match t.order_book.lookup id with
  | none => (t, false)
  | some old =>
      let book := t.order_book.erase id
      if old.buys then (⟨book, del_tier OrderDual.toDual t.bids old, t.asks⟩, true)
      else (⟨book, t.bids, del_tier (fun p => p) t.asks old⟩, true)

def get_best_bid (t : OrderTiers) : Int × Int64 × Bool :=
  match t.bids.first with
  | none => (0, 0, false)
  | some best => (OrderDual.ofDual best.1, best.2, true)

def get_best_ask (t : OrderTiers) : Int × Int64 × Bool :=
  match t.asks.first with
  | none => (0, 0, false)
  | some best => (best.1, best.2, true)

end OrderTiers

/-- An order with a positive size. -/
structure Order where
  msg : OrderMsg
  positive : 0 < msg.size.toInt

inductive Call where
  | add_order (id : Int) (order : Order)
  | modify_order (id : Int) (order : Order)
  | delete_order (id : Int)

def OrderTiers.step (t : OrderTiers) : Call → Option OrderTiers
  | .add_order id order => some (t.add_order id order.msg)
  | .modify_order id order => some (t.modify_order id order.msg).1
  | .delete_order id => some (t.delete_order id).1

end CppPerf.Market
