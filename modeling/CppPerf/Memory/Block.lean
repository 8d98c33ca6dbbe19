import Mathlib.Algebra.Ring.Nat
import Mathlib.Data.List.Basic
import Mathlib.Data.Option.Basic
import Mathlib.Tactic.Common

/-! Heap blocks with one owner, and pointers into them. A block keeps its
identity from allocation to release, and no identity is handed out twice, so a
pointer whose block is not the one owned is dangling. Undefined accesses have
no result. -/
namespace Heap

section Slices

variable {α : Type*}

/-- `n` cells from an offset on. -/
def slice (cells : List α) (off n : Nat) : List α := (cells.drop off).take n

/-- Replace the cells from an offset on. -/
def overwrite (cells : List α) (off : Nat) (data : List α) : List α :=
  cells.take off ++ data ++ cells.drop (off + data.length)

theorem length_slice {cells : List α} {off n : Nat} (h : off + n ≤ cells.length) :
    (slice cells off n).length = n := by
  rw [slice, List.length_take, List.length_drop]
  omega

@[simp] theorem slice_zero (cells : List α) (off : Nat) : slice cells off 0 = [] := by
  simp [slice]

theorem slice_add (cells : List α) (off n m : Nat) :
    slice cells off (n + m) = slice cells off n ++ slice cells (off + n) m := by
  rw [slice, List.take_add, List.drop_drop]
  rfl

/-- Skipping front cells of a slice. -/
theorem slice_drop (cells : List α) (off n k : Nat) :
    slice cells (off + k) (n - k) = (slice cells off n).drop k := by
  rw [slice, slice, List.drop_take, List.drop_drop]

/-- Dropping the last cells of a slice. -/
theorem slice_take (cells : List α) (off : Nat) {n k : Nat} (h : k ≤ n) :
    slice cells off k = (slice cells off n).take k := by
  rw [slice, slice, List.take_take, Nat.min_eq_left h]

theorem length_overwrite {cells data : List α} {off : Nat}
    (h : off + data.length ≤ cells.length) : (overwrite cells off data).length = cells.length := by
  simp only [overwrite, List.length_append, List.length_take, List.length_drop]
  omega

theorem slice_overwrite_self {cells data : List α} {off : Nat}
    (h : off + data.length ≤ cells.length) :
    slice (overwrite cells off data) off data.length = data := by
  have hLength : (cells.take off).length = off := by
    rw [List.length_take]
    omega
  rw [slice, overwrite, List.append_assoc, List.drop_append_of_le_length (by omega),
    List.drop_of_length_le (by omega), List.nil_append, List.take_left']
  rfl

/-- Cells in front of the replaced ones stay. -/
theorem slice_overwrite_before {cells data : List α} {off off' n : Nat}
    (hBefore : off' + n ≤ off) (h : off + data.length ≤ cells.length) :
    slice (overwrite cells off data) off' n = slice cells off' n := by
  have hLength : (cells.take off).length = off := by
    rw [List.length_take]
    omega
  have hFront : slice (cells.take off) off' n = slice cells off' n := by
    rw [slice, slice, List.drop_take, List.take_take, Nat.min_eq_left (by omega)]
  rw [← hFront, slice, slice, overwrite, List.append_assoc,
    List.drop_append_of_le_length (by omega), List.take_append_of_le_length]
  rw [List.length_drop]
  omega

/-- Data written right behind a slice extends it. -/
theorem slice_overwrite_append {cells data : List α} {off n : Nat}
    (h : off + n + data.length ≤ cells.length) :
    slice (overwrite cells (off + n) data) off (n + data.length) =
      slice cells off n ++ data := by
  rw [slice_add, slice_overwrite_before (Nat.le_refl _) h, slice_overwrite_self h]

end Slices

structure Ptr where
  block : Nat
  offset : Nat
deriving DecidableEq

structure Block where
  id : Nat
  bytes : List UInt8

namespace Block

/-- A new block of zero bytes. -/
def zeroed (id size : Nat) : Block := ⟨id, List.replicate size 0⟩

def start (b : Block) : Ptr := ⟨b.id, 0⟩

@[simp] theorem id_zeroed (id size : Nat) : (zeroed id size).id = id := rfl

@[simp] theorem length_zeroed (id size : Nat) : (zeroed id size).bytes.length = size :=
  List.length_replicate

end Block

/-- The start of an owned block; the null pointer without one. -/
def get (owner : Option Block) : Option Ptr := owner.map Block.start

def shift (p : Option Ptr) (n : Nat) : Option Ptr :=
  p.map fun q => { q with offset := q.offset + n }

/-- The distance of a pointer from the start of the block that is owned. Two
null pointers are at distance 0. -/
def distance (owner : Option Block) (p : Option Ptr) : Option Nat :=
  match owner, p with
  | some b, some q => if q.block = b.id ∧ q.offset ≤ b.bytes.length then some q.offset else none
  | none, none => some 0
  | _, _ => none

def load (owner : Option Block) (p : Option Ptr) (n : Nat) : Option (List UInt8) :=
  match owner, p with
  | some b, some q =>
      if q.block = b.id ∧ q.offset + n ≤ b.bytes.length then some (slice b.bytes q.offset n)
      else none
  | _, _ => none

def store (owner : Option Block) (p : Option Ptr) (data : List UInt8) : Option Block :=
  match owner, p with
  | some b, some q =>
      if q.block = b.id ∧ q.offset + data.length ≤ b.bytes.length then
        some { b with bytes := overwrite b.bytes q.offset data }
      else none
  | _, _ => none

theorem distance_of_le {b : Block} {off : Nat} (h : off ≤ b.bytes.length) :
    distance (some b) (some ⟨b.id, off⟩) = some off := by
  simp [distance, h]

theorem load_of_le {b : Block} {off n : Nat} (h : off + n ≤ b.bytes.length) :
    load (some b) (some ⟨b.id, off⟩) n = some (slice b.bytes off n) := by
  simp [load, h]

theorem store_of_le {b : Block} {off : Nat} {data : List UInt8}
    (h : off + data.length ≤ b.bytes.length) :
    store (some b) (some ⟨b.id, off⟩) data =
      some { b with bytes := overwrite b.bytes off data } := by
  simp [store, h]

/-- As many bytes are read as are asked for, and the block has them. -/
theorem exists_owner_of_load {owner : Option Block} {p : Option Ptr} {n : Nat}
    {data : List UInt8} (h : load owner p n = some data) :
    data.length = n ∧ ∃ b, owner = some b ∧ n ≤ b.bytes.length := by
  cases owner with
  | none => simp [load] at h
  | some b =>
      cases p with
      | none => simp [load] at h
      | some q =>
          rw [load] at h
          split_ifs at h with hIn
          rw [← Option.some.inj h]
          exact ⟨length_slice hIn.2, b, rfl, by omega⟩

/-- Bytes are stored at the start of a block that is as large. -/
theorem store_get_eq_some_iff {owner : Option Block} {data : List UInt8} {block : Block} :
    store owner (get owner) data = some block ↔
      ∃ b, owner = some b ∧ data.length ≤ b.bytes.length ∧
        block = { b with bytes := overwrite b.bytes 0 data } := by
  cases owner with
  | none => simp [store]
  | some b =>
      by_cases hFits : data.length ≤ b.bytes.length
      · have hStore : store (some b) (get (some b)) data =
            some { b with bytes := overwrite b.bytes 0 data } :=
          store_of_le (by rwa [Nat.zero_add])
        simp [hStore, hFits, eq_comm]
      · simp [store, get, Block.start, hFits]

end Heap
