import CppPerf.HashTable.Basic
import CppPerf.Semantics.OpenAddressing
import CppPerf.Semantics.Run
import CppPerf.Semantics.SetHistory
import CppPerf.Semantics.Vec
import Mathlib.Data.Nat.Sqrt

/-! The table of `HashTableProbing.h`: closed hashing with quadratic probing.
The two highest of the 32 hash bits mark a slot as empty or as a tombstone. -/
namespace CppPerf.HashTable

open Indexed

def maskEmpty : UInt64 := 0x80000000
def maskTomb : UInt64 := 0x40000000
def maskHash : UInt64 := 0x3FFFFFFF
def maskValid : UInt64 := 0xC0000000

structure ProbingElement (α : Type*) where
  preHash : UInt64
  data : α

namespace ProbingElement

variable {α : Type*}

def empty (e : ProbingElement α) : Bool := e.preHash &&& maskEmpty != 0
def tombStone (e : ProbingElement α) : Bool := e.preHash &&& maskTomb != 0
def valid (e : ProbingElement α) : Bool := e.preHash &&& maskValid == 0

instance [Inhabited α] : Inhabited (ProbingElement α) := ⟨⟨maskEmpty, default⟩⟩

end ProbingElement

structure HashTableProbing (α : Type*) where
  bucketSize : Nat
  probeLen : Nat
  pElements : Vec (ProbingElement α)
  elements : Nat

namespace HashTableProbing

variable {α : Type*}

/-- The in-class initialisers. -/
def new [Inhabited α] : HashTableProbing α := ⟨20003, 140, Vec.empty default, 0⟩

def hashInitialize [Inhabited α] (t : HashTableProbing α) (iDesiredSize : Nat) :
    HashTableProbing α :=
  let bucketSize := calcSize iDesiredSize
  { elements := 0
    bucketSize := bucketSize
    pElements := if t.pElements.size < bucketSize then t.pElements.resize bucketSize default
      else t.pElements
    probeLen := Nat.sqrt bucketSize }

def size (t : HashTableProbing α) : Nat := t.elements

/-- `iterator::next` from position `first`, with `left` positions up to `last`. -/
def nextLoop (t : HashTableProbing α) : (left first : Nat) → Nat
  | 0, first => first
  | left + 1, first =>
      if (t.pElements.get first).valid then first else nextLoop t left (first + 1)

def next (t : HashTableProbing α) (first : Nat) : Nat :=
  t.nextLoop (t.pElements.size - first) first

def begin (t : HashTableProbing α) : Nat := t.next 0

def «end» (t : HashTableProbing α) : Nat := t.pElements.size

/-- The loop `for (; first != end(); ++first)` and the data it dereferences.
It is cut off after `fuel` rounds. -/
def iterate (t : HashTableProbing α) : (fuel first : Nat) → Option (List α)
  | fuel, first =>
      if first = t.end then some []
      else
        match fuel with
        | 0 => none
        | fuel + 1 =>
            (iterate t fuel (t.next (first + 1))).map ((t.pElements.get first).data :: ·)

variable [Hashable α]

def hashVal (value : α) : UInt64 := hash value &&& maskHash

/-- `(hashVal + i*i) % bucket_size` -/
def slot (t : HashTableProbing α) (hashVal : UInt64) (i : Nat) : Nat :=
  (hashVal.toNat + i * i) % t.bucketSize

variable [BEq α]

/-- The probe loop of `findSlot` from probe `i`, with `left` probes to go;
`none` stands for `-1`. -/
def findSlotLoop (t : HashTableProbing α) (data : α) : (left i : Nat) → Option Nat
  | 0, _ => none
  | left + 1, i =>
      let slot := t.slot (hashVal data) i
      let elem := t.pElements.get slot
      if elem.empty then none
      else if elem.preHash == hashVal data && elem.data == data then some slot
      else findSlotLoop t data left (i + 1)

def findSlot (t : HashTableProbing α) (data : α) : Option Nat :=
  t.findSlotLoop data t.probeLen 0

/-- The probe loop of `insert`. `deleted` is the last tombstone passed, and
`none` stands for `UINT32_MAX`. Returned are the new table and the pair of
the source: iterator position (`none` is `end()`), and whether it is new. -/
def insertLoop (t : HashTableProbing α) (value : α) (deleted : Option Nat) :
    (left i : Nat) → HashTableProbing α × Option Nat × Bool
  | 0, _ => (t, none, false)
  | left + 1, i =>
      let slot := t.slot (hashVal value) i
      let elem := t.pElements.get slot
      if elem.empty then
        let slot := deleted.getD slot
        ({ t with
            pElements := t.pElements.set slot ⟨hashVal value, value⟩
            elements := t.elements + 1 },
          some slot, true)
      else if elem.preHash == hashVal value && elem.data == value then
        ({ t with pElements := t.pElements.set slot { elem with data := value } },
          some slot, false)
      else if elem.tombStone then insertLoop t value (some slot) left (i + 1)
      else insertLoop t value deleted left (i + 1)

def insert (t : HashTableProbing α) (value : α) : HashTableProbing α × Option Nat × Bool :=
  t.insertLoop value none t.probeLen 0

/-- The position of the iterator returned by `find`; `none` is `end()`. -/
def find (t : HashTableProbing α) (data : α) : Option Nat := t.findSlot data

def erase (t : HashTableProbing α) (data : α) : HashTableProbing α × Nat :=
  match t.findSlot data with
  | none => (t, 0)
  | some slot =>
      let elem := t.pElements.get slot
      ({ t with
          pElements := t.pElements.set slot { elem with preHash := maskTomb }
          elements := t.elements - 1 },
        1)

open SetHistory Transition in
/-- A client call, with the history of the insertions that did not return
`end()` and of the erasures that returned one. -/
def step : Step (HashTableProbing α × List (Event α)) (Call α)
  | (t, past), .insert x =>
      match t.insert x with
      | (t', pos, _) => some (t', if pos.isSome then .inserted x :: past else past)
  | (t, past), .erase x =>
      match t.erase x with
      | (t', n) => some (t', if n = 1 then .erased x :: past else past)
  | (t, past), .find _ => some (t, past)

end HashTableProbing

/-! The probing table as an instance of open addressing. The probe loops of
the table are the abstract lookup and placement along one path. -/

open OpenAddressing

namespace ProbingElement

variable {α : Type*}

/-- A slot has neither mark exactly when it is neither empty nor a tombstone. -/
theorem valid_eq (e : ProbingElement α) : e.valid = (!e.empty && !e.tombStone) := by
  have hMask : maskValid = maskEmpty ||| maskTomb := by decide
  have hSplit :
      e.preHash &&& maskValid = (e.preHash &&& maskEmpty) ||| (e.preHash &&& maskTomb) := by
    rw [hMask, ← UInt64.toBitVec_inj]
    simp [BitVec.and_or_distrib_left]
  rw [Bool.eq_iff_iff]
  simp [valid, empty, tombStone, hSplit]

def cell (e : ProbingElement α) : Cell α :=
  if e.empty then .empty else if e.tombStone then .tomb else .full e.data

theorem cell_eq_full_iff (e : ProbingElement α) (k : α) :
    e.cell = .full k ↔ e.valid = true ∧ e.data = k := by
  cases hEmpty : e.empty <;> cases hTomb : e.tombStone <;> simp [cell, valid_eq, hEmpty, hTomb]

/-- `erase` turns a slot into a tombstone, whatever its data. -/
theorem cell_buried (data : α) : (⟨maskTomb, data⟩ : ProbingElement α).cell = .tomb := by
  have hEmpty : maskTomb &&& maskEmpty = 0 := by decide
  have hTomb : maskTomb &&& maskTomb ≠ 0 := by decide
  simp only [cell, empty, tombStone, hEmpty, bne_self_eq_false, Bool.false_eq_true, ↓reduceIte,
    bne_iff_ne, ne_eq, hTomb, not_false_eq_true]

theorem not_valid_buried (data : α) : (⟨maskTomb, data⟩ : ProbingElement α).valid = false := by
  have hMask : (maskTomb &&& maskValid == 0) = false := by decide
  simpa only [valid] using hMask

end ProbingElement

theorem maskHash_and_maskEmpty (h : UInt64) : (h &&& maskHash) &&& maskEmpty = 0 := by
  rw [UInt64.and_assoc, show maskHash &&& maskEmpty = 0 by decide, UInt64.and_zero]

theorem maskHash_and_maskTomb (h : UInt64) : (h &&& maskHash) &&& maskTomb = 0 := by
  rw [UInt64.and_assoc, show maskHash &&& maskTomb = 0 by decide, UInt64.and_zero]

namespace HashTableProbing

variable {α : Type*} [Hashable α]

/-- A stored hash carries neither mark. -/
theorem empty_eq_false_of_preHash {e : ProbingElement α} {x : α} (h : e.preHash = hashVal x) :
    e.empty = false := by
  simp [ProbingElement.empty, h, hashVal, maskHash_and_maskEmpty]

theorem tombStone_eq_false_of_preHash {e : ProbingElement α} {x : α}
    (h : e.preHash = hashVal x) : e.tombStone = false := by
  simp [ProbingElement.tombStone, h, hashVal, maskHash_and_maskTomb]

def cells (t : HashTableProbing α) (s : Nat) : Cell α := (t.pElements.get s).cell

/-- The slots probed for a key, in order. -/
def path (t : HashTableProbing α) (x : α) : List Nat :=
  (List.range' 0 t.probeLen).map (t.slot (hashVal x))

theorem lt_of_mem_path {t : HashTableProbing α} (hPos : 0 < t.bucketSize) {x : α} {s : Nat}
    (h : s ∈ t.path x) : s < t.bucketSize := by
  obtain ⟨i, _, rfl⟩ := List.mem_map.mp h
  exact Nat.mod_lt _ hPos

variable [BEq α]

theorem hashVal_congr [LawfulHashable α] {x y : α} (hxy : x == y) : hashVal x = hashVal y := by
  rw [hashVal, hashVal, LawfulHashable.hash_eq x y hxy]

theorem path_congr [LawfulHashable α] (t : HashTableProbing α) (x y : α) (hxy : x == y) :
    t.path x = t.path y := by
  rw [path, path, hashVal_congr hxy]

/-- Slots without a mark keep the masked hash of their data. -/
def HashesKept (t : HashTableProbing α) : Prop :=
  ∀ s, (t.pElements.get s).valid = true →
    (t.pElements.get s).preHash = hashVal (t.pElements.get s).data

/-- What `insert` does with the outcome of an abstract placement. -/
def afterPlace (t : HashTableProbing α) (x : α) :
    Option (Nat × Bool) → HashTableProbing α × Option Nat × Bool
  | none => (t, none, false)
  | some (s, true) =>
      ({ t with pElements := t.pElements.set s ⟨hashVal x, x⟩, elements := t.elements + 1 },
        some s, true)
  | some (s, false) =>
      ({ t with pElements := t.pElements.set s ⟨(t.pElements.get s).preHash, x⟩ }, some s, false)

section Loops

variable [LawfulHashable α] {t : HashTableProbing α} (hKept : t.HashesKept) (x : α)

include hKept

/-- The hash comparison of the loops accepts a slot exactly when its cell is
full with an equal key; a tombstone never matches. -/
theorem match_iff (s : Nat) (hEmpty : (t.pElements.get s).empty = false) :
    ((t.pElements.get s).preHash == hashVal x && (t.pElements.get s).data == x) =
      (!(t.pElements.get s).tombStone && (t.pElements.get s).data == x) := by
  cases hTomb : (t.pElements.get s).tombStone with
  | true =>
      have hne : (t.pElements.get s).preHash ≠ hashVal x := by
        intro h
        rw [tombStone_eq_false_of_preHash h] at hTomb
        cases hTomb
      simp [hne]
  | false =>
      cases hEq : (t.pElements.get s).data == x with
      | false => simp
      | true =>
          have hValid : (t.pElements.get s).valid = true := by
            simp [ProbingElement.valid_eq, hEmpty, hTomb]
          simp [hKept s hValid, hashVal_congr hEq]

theorem findSlotLoop_eq (left i : Nat) :
    t.findSlotLoop x left i =
      lookup t.cells x ((List.range' i left).map (t.slot (hashVal x))) := by
  induction left generalizing i with
  | zero => rfl
  | succ left ih =>
      simp only [findSlotLoop, List.range'_succ, List.map_cons, lookup, cells,
        ProbingElement.cell]
      cases hEmpty : (t.pElements.get (t.slot (hashVal x) i)).empty with
      | true => rfl
      | false =>
          rw [match_iff hKept x _ hEmpty, ih]
          cases hTomb : (t.pElements.get (t.slot (hashVal x) i)).tombStone <;> simp

theorem findSlot_eq : t.findSlot x = lookup t.cells x (t.path x) :=
  findSlotLoop_eq hKept x t.probeLen 0

theorem insertLoop_eq (deleted : Option Nat) (left i : Nat) :
    t.insertLoop x deleted left i = t.afterPlace x
      (place t.cells (fun _ next => next) x deleted
        ((List.range' i left).map (t.slot (hashVal x)))) := by
  induction left generalizing i deleted with
  | zero => rfl
  | succ left ih =>
      simp only [insertLoop, List.range'_succ, List.map_cons, place, cells, ProbingElement.cell]
      cases hEmpty : (t.pElements.get (t.slot (hashVal x) i)).empty with
      | true => rfl
      | false =>
          rw [match_iff hKept x _ hEmpty]
          cases hTomb : (t.pElements.get (t.slot (hashVal x) i)).tombStone with
          | true =>
              simp only [Bool.not_true, Bool.false_and, Bool.false_eq_true, ↓reduceIte, ih]
              cases deleted <;> rfl
          | false =>
              simp only [Bool.not_false, Bool.true_and, Bool.false_eq_true, ↓reduceIte, ih]
              split_ifs <;> rfl

theorem insert_eq : t.insert x =
    t.afterPlace x (place t.cells (fun _ next => next) x none (t.path x)) :=
  insertLoop_eq hKept x none t.probeLen 0

end Loops
end HashTableProbing
end CppPerf.HashTable
