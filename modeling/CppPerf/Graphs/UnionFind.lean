import CppPerf.Semantics.OrderedMap
import CppPerf.Semantics.Vec
import Mathlib.Data.Nat.PSub

/-! The four union-find classes of `UnionFind.h`. A search that has gone
through more nodes than there are has met one of them twice and never ends. -/
namespace CppPerf.Graphs

open Indexed Ordered

/-- Go from a node to its parent while it has one. There is nothing to read
beyond the nodes. -/
def followParents (nodes : Nat) (parent : Nat → Option Nat) : Nat → Nat → Option Nat
  | 0, _ => none
  | rounds + 1, u =>
      if u < nodes then
        match parent u with
        | none => some u
        | some p => followParents nodes parent rounds p
      else none

structure UnionFindSimple where
  parent : Vec Nat
  size : Vec Nat
  union_count : Nat := 0

namespace UnionFindSimple

def construct (N : Nat) : UnionFindSimple where
  parent := ⟨N, fun u => u⟩
  size := ⟨N, fun _ => 0⟩

variable (uf : UnionFindSimple)

/-- A root is its own parent. -/
def parentOf (u : Nat) : Option Nat :=
  if uf.parent.get u ≠ u then some (uf.parent.get u) else none

def find (u : Nat) : Option Nat :=
  followParents uf.parent.size uf.parentOf (uf.parent.size + 1) u

/-- Merge small to big. -/
def link (p_u p_v : Nat) : UnionFindSimple where
  parent := uf.parent.set p_u (uf.parent.get p_v)
  size := uf.size.set p_v (uf.size.get p_v + uf.size.get p_u)
  union_count := uf.union_count + 1

/-- The nodes are counted from 1. -/
def add_edge (u v : Nat) : Option (Bool × UnionFindSimple) :=
  (u.ppred.bind uf.find).bind fun p_u =>
    (v.ppred.bind uf.find).bind fun p_v =>
      if p_u ≠ p_v then
        if uf.size.get p_v < uf.size.get p_u then some (true, uf.link p_v p_u)
        else some (true, uf.link p_u p_v)
      else some (false, uf)

def components : Nat := uf.parent.size - uf.union_count

end UnionFindSimple

structure UnionFind_Map where
  parents : OrderedMap Int Int := OrderedMap.empty
  size : OrderedMap Int Int32 := OrderedMap.empty
  max_size : Int32 := 0

namespace UnionFind_Map

variable (uf : UnionFind_Map)

def findLoop : Nat → Int → Option Int
  | 0, _ => none
  | rounds + 1, a =>
      match uf.parents.lookup a with
      | none => some a
      | some p => findLoop rounds p

def find_parent (a : Int) : Option Int := uf.findLoop (uf.parents.entries.length + 1) a

/-- The entry of a root, which is made 1 if there was none. -/
def sizeOf (p : Int) : Int32 :=
  let s := (uf.size.lookup p).getD 0
  if s = 0 then s + 1 else s

/-- `child`, whose entry is `sc`, gets the parent `p`, whose entry is `sp`. -/
def link (child p : Int) (sc sp : Int32) : UnionFind_Map where
  parents := uf.parents.set child p
  size := (uf.size.set child sc).set p (sp + sc)
  max_size := if uf.max_size < sp + sc then sp + sc else uf.max_size

def join (a b : Int) : Option UnionFind_Map :=
  (uf.find_parent a).bind fun pa =>
    (uf.find_parent b).bind fun pb =>
      if pa = pb then some uf
      else
        let sa := uf.sizeOf pa
        let sb := uf.sizeOf pb
        if sb < sa then some (uf.link pb pa sb sa) else some (uf.link pa pb sa sb)

def largest_CC : Int32 := uf.max_size

end UnionFind_Map

/-- The parent of a node, if the entry is not negative. -/
def parentIn (parents : Vec Int) (u : Nat) : Option Nat :=
  if parents.get u < 0 then none else some (parents.get u).toNat

structure UnionFind where
  parents : Vec Int
  size : Vec Nat
  nodes_added : Nat := 0

namespace UnionFind

def construct (N : Nat) : UnionFind where
  parents := ⟨N + 1, fun _ => -1⟩
  size := ⟨N + 1, fun _ => 1⟩

variable (uf : UnionFind)

def find (u : Nat) : Option Nat :=
  followParents uf.parents.size (parentIn uf.parents) (uf.parents.size + 1) u

def update_count (u : Nat) : UnionFind :=
  if 0 ≤ uf.parents.get u ∨ 1 < uf.size.get u then uf
  else { uf with nodes_added := uf.nodes_added + 1 }

def link (pu pv : Nat) : UnionFind :=
  { uf with
    parents := uf.parents.set pu pv
    size := uf.size.set pv (uf.size.get pv + uf.size.get pu) }

def union_ (u v : Nat) : Option (Bool × UnionFind) :=
  let uf := (uf.update_count u).update_count v
  (uf.find u).bind fun pu =>
    (uf.find v).bind fun pv =>
      if pu = pv then some (false, uf)
      else if uf.size.get pv < uf.size.get pu then some (true, uf.link pv pu)
      else some (true, uf.link pu pv)

/-- The nodes that `union_` has been called with. -/
def get_count : Nat := uf.nodes_added

/-- There is no largest element of an empty array. -/
def max_component_size : Option Nat :=
  ((List.range uf.size.size).map uf.size.get).max?

end UnionFind

structure UnionFind3 where
  parents : Vec Int
  size : Vec Nat

namespace UnionFind3

def construct (n : Nat) : UnionFind3 where
  parents := ⟨n, fun _ => -1⟩
  size := ⟨n, fun _ => 1⟩

variable (uf : UnionFind3)

def find (u : Nat) : Option Nat :=
  followParents uf.parents.size (parentIn uf.parents) (uf.parents.size + 1) u

/-- The smaller component joins the larger one and is erased. -/
def link (pu pv : Nat) : UnionFind3 where
  parents := uf.parents.set pu pv
  size := (uf.size.set pv (uf.size.get pv + uf.size.get pu)).set pu 0

def connect (u v : Nat) : Option (Bool × UnionFind3) :=
  (uf.find u).bind fun pu =>
    (uf.find v).bind fun pv =>
      if pu = pv then some (false, uf)
      else if uf.size.get pv < uf.size.get pu then some (true, uf.link pv pu)
      else some (true, uf.link pu pv)

def get_components : List Nat :=
  ((List.range uf.size.size).map uf.size.get).filter fun s => s ≠ 0

end UnionFind3
end CppPerf.Graphs
