import CppPerf.Semantics.OpenAddressing
import CppPerf.Semantics.Vec

/-! The small hash set and hash map, with their cells as the open addressing
library sees them. A failed insertion is undefined (`assert(false)`). -/
namespace CppPerf.HashTable

open Indexed OpenAddressing

namespace DesignHash

def bucket_size : Nat := 20003

def PROBE_LEN : Nat := 140

/-- `UINT32_MAX`, in a 64-bit hash. -/
def unused : UInt64 := 4294967295

/-- `(hasVal + i*i) % bucket_size`, for each `i` in turn. -/
def probes (hasVal : UInt64) : List Nat :=
  (List.range PROBE_LEN).map fun i => ((hasVal + UInt64.ofNat (i * i)) % 20003).toNat

end DesignHash

open DesignHash

namespace MyHashSet

structure HASH_ELEMENT where
  hash : UInt64 := unused
  key : Int32 := 0
  tomb : Bool := false

end MyHashSet

structure MyHashSet where
  pElements : Vec MyHashSet.HASH_ELEMENT

namespace MyHashSet

variable (hasher : Int32 → UInt64)

def new : MyHashSet := ⟨(Vec.empty {}).resize bucket_size {}⟩

def findLoop (t : MyHashSet) (key : Int32) : List Nat → Option Nat
  | [] => none
  | s :: rest =>
      let elem := t.pElements.get s
      if elem.hash = unused ∧ elem.tomb = false then none
      else if elem.tomb = false ∧ elem.key = key then some s
      else findLoop t key rest

def find (t : MyHashSet) (key : Int32) : Option Nat := t.findLoop key (probes (hasher key))

def addLoop (t : MyHashSet) (key : Int32) : List Nat → Option MyHashSet
  | [] => none
  | s :: rest =>
      let elem := t.pElements.get s
      if elem.hash = unused ∧ elem.tomb = false then
        some ⟨t.pElements.set s { elem with key := key, hash := hasher key }⟩
      else if elem.tomb = false ∧ elem.key = key then some t
      else addLoop t key rest

def add (t : MyHashSet) (key : Int32) : Option MyHashSet :=
  t.addLoop hasher key (probes (hasher key))

def remove (t : MyHashSet) (key : Int32) : MyHashSet :=
  match t.find hasher key with
  | some s => ⟨t.pElements.set s { t.pElements.get s with tomb := true, hash := unused }⟩
  | none => t

def contains (t : MyHashSet) (key : Int32) : Bool := (t.find hasher key).isSome

/-- What an element says about its cell. -/
def HASH_ELEMENT.cell (elem : HASH_ELEMENT) : Cell Int32 :=
  if elem.tomb then .tomb else if elem.hash = unused then .empty else .full elem.key

def cells (t : MyHashSet) (s : Nat) : Cell Int32 := (t.pElements.get s).cell

theorem cells_new (s : Nat) : new.cells s = .empty := by
  have hGet : new.pElements.get s = {} := by
    simp [new, Vec.resize, Vec.empty]
  rw [cells, hGet]
  rfl

theorem cells_set (t : MyHashSet) (s : Nat) (elem : HASH_ELEMENT) :
    cells ⟨t.pElements.set s elem⟩ = write t.cells s elem.cell := by
  funext j
  rw [cells, Vec.get_set, write]
  split_ifs <;> rfl

variable {t : MyHashSet} {key : Int32}

theorem findLoop_eq (path : List Nat) : t.findLoop key path = lookup t.cells key path := by
  induction path with
  | nil => rfl
  | cons s rest ih =>
      rw [findLoop, lookup, cells, HASH_ELEMENT.cell, ih]
      cases hTomb : (t.pElements.get s).tomb with
      | true => simp
      | false =>
          by_cases hUnused : (t.pElements.get s).hash = unused
          · simp [hUnused]
          · by_cases hKey : (t.pElements.get s).key = key <;> simp [hUnused, hKey]

theorem find_eq : t.find hasher key = lookup t.cells key (probes (hasher key)) := findLoop_eq _

/-- The loop of `add` writes where the insertion of the library does. -/
theorem addLoop_eq (path : List Nat) :
    t.addLoop hasher key path = (settle t.cells key path).map fun r =>
      if r.2 then
        ⟨t.pElements.set r.1 { t.pElements.get r.1 with key := key, hash := hasher key }⟩
      else t := by
  induction path with
  | nil => rfl
  | cons s rest ih =>
      rw [addLoop, settle, cells, HASH_ELEMENT.cell, ih]
      cases hTomb : (t.pElements.get s).tomb with
      | true => simp
      | false =>
          by_cases hUnused : (t.pElements.get s).hash = unused
          · simp [hUnused, hTomb]
          · by_cases hKey : (t.pElements.get s).key = key <;> simp [hUnused, hKey]

end MyHashSet

namespace MyHashMap

structure HASH_ELEMENT where
  hash : UInt64 := unused
  key : Int32 := 0
  data : Int32 := 0
  empty : Bool := true

end MyHashMap

structure MyHashMap where
  pElements : Vec MyHashMap.HASH_ELEMENT

namespace MyHashMap

variable (hasher : Int32 → UInt64)

def new : MyHashMap := ⟨(Vec.empty {}).resize bucket_size {}⟩

def findLoop (t : MyHashMap) (key : Int32) : List Nat → Option Nat
  | [] => none
  | s :: rest =>
      let elem := t.pElements.get s
      if elem.empty then none
      else if elem.hash = hasher key ∧ elem.key = key then some s
      else findLoop t key rest

def find (t : MyHashMap) (key : Int32) : Option Nat := t.findLoop hasher key (probes (hasher key))

def putLoop (t : MyHashMap) (key value : Int32) : List Nat → Option MyHashMap
  | [] => none
  | s :: rest =>
      let elem := t.pElements.get s
      if elem.empty then some ⟨t.pElements.set s ⟨hasher key, key, value, false⟩⟩
      else if elem.hash = hasher key ∧ elem.key = key then
        some ⟨t.pElements.set s { elem with data := value }⟩
      else putLoop t key value rest

def put (t : MyHashMap) (key value : Int32) : Option MyHashMap :=
  t.putLoop hasher key value (probes (hasher key))

def get (t : MyHashMap) (key : Int32) : Int32 :=
  match t.find hasher key with
  | some s => (t.pElements.get s).data
  | none => -1

def remove (t : MyHashMap) (key : Int32) : MyHashMap :=
  match t.find hasher key with
  | some s => ⟨t.pElements.set s { t.pElements.get s with hash := unused, key := 0 }⟩
  | none => t

/-- What an element says about its cell: a key is there under its own hash. -/
def HASH_ELEMENT.cell (elem : HASH_ELEMENT) : Cell Int32 :=
  if elem.empty then .empty else if elem.hash = hasher elem.key then .full elem.key else .tomb

def cells (t : MyHashMap) (s : Nat) : Cell Int32 := (t.pElements.get s).cell hasher

theorem cells_new (s : Nat) : new.cells hasher s = .empty := by
  have hGet : new.pElements.get s = {} := by
    simp [new, Vec.resize, Vec.empty]
  rw [cells, hGet]
  rfl

theorem cells_set (t : MyHashMap) (s : Nat) (elem : HASH_ELEMENT) :
    cells hasher ⟨t.pElements.set s elem⟩ = write (t.cells hasher) s (elem.cell hasher) := by
  funext j
  rw [cells, Vec.get_set, write]
  split_ifs <;> rfl

variable {t : MyHashMap} {key value : Int32}

theorem findLoop_eq (path : List Nat) :
    t.findLoop hasher key path = lookup (t.cells hasher) key path := by
  induction path with
  | nil => rfl
  | cons s rest ih =>
      rw [findLoop, lookup, cells, HASH_ELEMENT.cell, ih]
      cases hEmpty : (t.pElements.get s).empty with
      | true => simp
      | false =>
          by_cases hKey : (t.pElements.get s).key = key
          · by_cases hHash : (t.pElements.get s).hash = hasher key <;> simp [hKey, hHash]
          · by_cases hHash : (t.pElements.get s).hash = hasher (t.pElements.get s).key <;>
              simp [hKey, hHash]

theorem find_eq : t.find hasher key = lookup (t.cells hasher) key (probes (hasher key)) :=
  findLoop_eq hasher _

theorem putLoop_eq (path : List Nat) :
    t.putLoop hasher key value path = (settle (t.cells hasher) key path).map fun r =>
      if r.2 then ⟨t.pElements.set r.1 ⟨hasher key, key, value, false⟩⟩
      else ⟨t.pElements.set r.1 { t.pElements.get r.1 with data := value }⟩ := by
  induction path with
  | nil => rfl
  | cons s rest ih =>
      rw [putLoop, settle, cells, HASH_ELEMENT.cell, ih]
      cases hEmpty : (t.pElements.get s).empty with
      | true => simp
      | false =>
          by_cases hKey : (t.pElements.get s).key = key
          · by_cases hHash : (t.pElements.get s).hash = hasher key <;> simp [hKey, hHash, hEmpty]
          · by_cases hHash : (t.pElements.get s).hash = hasher (t.pElements.get s).key <;>
              simp [hKey, hHash]

end MyHashMap
end CppPerf.HashTable
