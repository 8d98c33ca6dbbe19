import CppPerf.HashTable.DesignHash
import CppPerf.Semantics.Run
import Mathlib.Data.List.Nodup
import Mathlib.Data.List.Perm.Subperm

/-! The small hash set is a set, and the small hash map is a map, as long as
an insertion still finds a slot that was never used. Removing a key does not
give its slot back. -/
namespace CppPerf.HashTable

open Indexed OpenAddressing Transition DesignHash

/-- The slots of a key. -/
abbrev DesignHash.slots (hasher : Int32 → UInt64) (key : Int32) : List Nat := probes (hasher key)

namespace MyHashSet

variable {hasher : Int32 → UInt64} {t t' : MyHashSet} {key : Int32}

/-- What `add` does: the key is there, or goes to the first unused slot. -/
theorem add_cases (hRun : t.add hasher key = some t') :
    ((lookup t.cells key (slots hasher key)).isSome = true ∧ t' = t) ∨
    (lookup t.cells key (slots hasher key) = none ∧
      ∃ s, t.cells s = .empty ∧ Reaches t.cells (slots hasher key) s ∧
        t'.cells = write t.cells s (if hasher key = unused then .empty else .full key)) := by
  rw [add, addLoop_eq] at hRun
  obtain ⟨⟨s, isNew⟩, hSettle, rfl⟩ := Option.map_eq_some_iff.mp hRun
  have hLookup := lookup_eq_settle t.cells key (slots hasher key)
  rw [hSettle, Option.bind_some] at hLookup
  cases isNew with
  | false => exact Or.inl ⟨by rw [hLookup]; rfl, rfl⟩
  | true =>
      obtain ⟨hCell, hReach⟩ := settle_new hSettle
      have hTomb : (t.pElements.get s).tomb = false := by
        cases hTomb : (t.pElements.get s).tomb with
        | false => rfl
        | true => simp [cells, HASH_ELEMENT.cell, hTomb] at hCell
      refine Or.inr ⟨hLookup, s, hCell, hReach, ?_⟩
      rw [if_pos rfl, cells_set, HASH_ELEMENT.cell, hTomb]
      rfl

/-- An insertion fails only where every slot of a new key was used. -/
theorem add_isSome_iff : (t.add hasher key).isSome = true ↔
    (lookup t.cells key (slots hasher key)).isSome = true ∨
      ∃ s ∈ slots hasher key, t.cells s = .empty := by
  rw [add, addLoop_eq, Option.isSome_map, settle_isSome_iff]

theorem remove_cells (hasher : Int32 → UInt64) (t : MyHashSet) (key : Int32) :
    (t.remove hasher key).cells =
      (lookup t.cells key (slots hasher key)).elim t.cells fun s => write t.cells s .tomb := by
  rw [remove, find_eq]
  cases lookup t.cells key (probes (hasher key)) with
  | none => rfl
  | some s => exact cells_set t s _

end MyHashSet

/-- A hash set and the set that it stands for. -/
structure HashSetWorld where
  table : MyHashSet
  members : Int32 → Bool

namespace HashSetWorld

inductive Call where
  | add (key : Int32)
  | remove (key : Int32)
  | contains (key : Int32)

variable (hasher : Int32 → UInt64)

def step : Step HashSetWorld Call
  | w, .add key =>
      (w.table.add hasher key).map fun table => ⟨table, Function.update w.members key true⟩
  | w, .remove key => some ⟨w.table.remove hasher key, Function.update w.members key false⟩
  | w, .contains _ => some w

def start : HashSetWorld := ⟨MyHashSet.new, fun _ => false⟩

def Agrees (w : HashSetWorld) : Prop := ∀ key, w.table.contains hasher key = w.members key

/-- No insertion fails, and the table is the set in every state. -/
def Behaves (calls : List Call) : Prop :=
  (∃ finish, run (step hasher) start calls = some finish) ∧
    Always (step hasher) (Agrees hasher) start calls

/-- A new key does not have the hash of unused slots, and one of its slots was
never used. -/
def Accepts (w : HashSetWorld) : Call → Prop
  | .add key => w.members key = false →
      hasher key ≠ unused ∧ ∃ s ∈ slots hasher key, w.table.cells s = .empty
  | _ => True

structure Sound (w : HashSetWorld) : Prop where
  inv : Invariant (slots hasher) w.table.cells
  agrees : Agrees hasher w

variable {hasher} {w w' : HashSetWorld} {key : Int32}

theorem start_sound : Sound hasher start where
  inv := invariant_of_empty MyHashSet.cells_new
  agrees key := by
    have hNone : start.table.find hasher key = none := by
      rw [MyHashSet.find_eq]
      exact lookup_of_empty MyHashSet.cells_new _ _
    rw [MyHashSet.contains, hNone]
    rfl

theorem contains_eq (t : MyHashSet) (key : Int32) :
    t.contains hasher key = (lookup t.cells key (slots hasher key)).isSome := by
  rw [MyHashSet.contains, MyHashSet.find_eq]

theorem Sound.absent_iff (h : Sound hasher w) :
    lookup w.table.cells key (slots hasher key) = none ↔ w.members key = false := by
  rw [← h.agrees, contains_eq, Option.isSome_eq_false_iff, Option.isNone_iff_eq_none]

/-- Every lookup changes as the set does. -/
theorem Sound.of_lookup (h : Sound hasher w) {table : MyHashSet} {value : Bool}
    (found : Option Nat) (hInv : Invariant (slots hasher) table.cells)
    (hFound : found.isSome = value)
    (hLookup : ∀ k, lookup table.cells k (slots hasher k) =
      if k = key then found else lookup w.table.cells k (slots hasher k)) :
    Sound hasher ⟨table, Function.update w.members key value⟩ := by
  refine ⟨hInv, fun k => ?_⟩
  dsimp only
  rw [contains_eq, hLookup, Function.update_apply]
  split_ifs
  · exact hFound
  · rw [← h.agrees, contains_eq]

theorem Sound.add (h : Sound hasher w) (hHash : w.members key = false → hasher key ≠ unused)
    {table : MyHashSet} (hRun : w.table.add hasher key = some table) :
    Sound hasher ⟨table, Function.update w.members key true⟩ := by
  rcases MyHashSet.add_cases hRun with ⟨hFound, rfl⟩ | ⟨hNone, s, hEmpty, hReach, hCells⟩
  · refine h.of_lookup _ h.inv hFound fun k => ?_
    split_ifs with hKey
    · rw [hKey]
    · rfl
  · rw [if_neg (hHash (h.absent_iff.mp hNone))] at hCells
    refine h.of_lookup (some s) ?_ rfl ?_
    · rw [hCells]
      exact h.inv.insert hNone hReach
    · rw [hCells]
      exact h.inv.lookup_insert hNone hEmpty hReach

theorem Sound.remove (h : Sound hasher w) (key : Int32) :
    Sound hasher ⟨w.table.remove hasher key, Function.update w.members key false⟩ := by
  have hCells := MyHashSet.remove_cells hasher w.table key
  cases hFind : lookup w.table.cells key (slots hasher key) with
  | none =>
      rw [hFind, Option.elim_none] at hCells
      refine h.of_lookup none ?_ rfl fun k => ?_
      · rw [hCells]
        exact h.inv
      · rw [hCells]
        split_ifs with hKey
        · rw [hKey, hFind]
        · rfl
  | some s =>
      rw [hFind, Option.elim_some] at hCells
      refine h.of_lookup none ?_ rfl ?_
      · rw [hCells]
        exact h.inv.write_tomb s
      · rw [hCells]
        exact h.inv.lookup_write_tomb ((h.inv.lookup_eq_some_iff key s).mp hFind)

theorem step_sound (w : HashSetWorld) (call : Call) (h : Sound hasher w)
    (hAccepts : w.Accepts hasher call) : ∃ w', step hasher w call = some w' ∧ Sound hasher w' := by
  cases call with
  | add key =>
      have hRun : (w.table.add hasher key).isSome = true := by
        rw [MyHashSet.add_isSome_iff, ← contains_eq, h.agrees]
        cases hMember : w.members key with
        | true => exact Or.inl rfl
        | false => exact Or.inr (hAccepts hMember).2
      obtain ⟨table, hRun⟩ := Option.isSome_iff_exists.mp hRun
      refine ⟨_, Option.map_eq_some_iff.mpr ⟨table, hRun, rfl⟩, h.add ?_ hRun⟩
      exact fun hAbsent => (hAccepts hAbsent).1
  | remove key => exact ⟨_, rfl, h.remove key⟩
  | contains key => exact ⟨w, rfl, h⟩

/-- A new key that is not accepted has no slot, or is lost at once. -/
theorem not_agrees_of_not_accepts (w : HashSetWorld) (call : Call) (w' : HashSetWorld)
    (h : Sound hasher w) (hNot : ¬w.Accepts hasher call) (hStep : step hasher w call = some w') :
    ¬Agrees hasher w' := by
  cases call with
  | add key =>
      obtain ⟨table, hRun, rfl⟩ := Option.map_eq_some_iff.mp hStep
      rw [Accepts, Classical.not_imp] at hNot
      obtain ⟨hAbsent, hNot⟩ := hNot
      have hNone := h.absent_iff.mpr hAbsent
      have hUnused : hasher key = unused := by
        by_contra hHash
        have hRoom := MyHashSet.add_isSome_iff.mp (Option.isSome_of_mem hRun)
        rw [hNone] at hRoom
        exact hNot ⟨hHash, hRoom.resolve_left Bool.false_ne_true⟩
      intro hAgrees
      have hKey : table.contains hasher key = true :=
        (hAgrees key).trans (Function.update_self _ _ _)
      rcases MyHashSet.add_cases hRun with ⟨hFound, _⟩ | ⟨_, s, hEmpty, _, hCells⟩
      · rw [hNone] at hFound
        cases hFound
      · rw [if_pos hUnused, write_eq_self hEmpty] at hCells
        rw [contains_eq, hCells, hNone] at hKey
        cases hKey
  | remove key => exact absurd trivial hNot
  | contains key => exact absurd trivial hNot

theorem behaves_iff (hasher : Int32 → UInt64) (calls : List Call) :
    Behaves hasher calls ↔ Guarded (step hasher) (Accepts hasher) start calls := by
  have hKeep : ∀ w call w', Sound hasher w → w.Accepts hasher call →
      step hasher w call = some w' → Sound hasher w' :=
    fun w call w' h hAccepts => of_exists_step (step_sound w call h hAccepts)
  constructor
  · rintro ⟨⟨finish, hRun⟩, hAlways⟩
    exact guarded_of_always hKeep not_agrees_of_not_accepts start_sound hRun hAlways
  · intro hGuard
    obtain ⟨finish, hRun, _⟩ := run_of_guarded step_sound start_sound hGuard
    exact ⟨⟨finish, hRun⟩, (always_of_guarded hKeep start_sound hGuard).mono fun w h => h.agrees⟩

end HashSetWorld

namespace MyHashMap

variable {hasher : Int32 → UInt64} {t t' : MyHashMap} {key value : Int32}

/-- What `put` does: the key's own slot, or the first unused one. -/
theorem put_cases (hRun : t.put hasher key value = some t') :
    ∃ s, (t'.pElements.get s).data = value ∧
      (∀ j, j ≠ s → t'.pElements.get j = t.pElements.get j) ∧
      ((lookup (t.cells hasher) key (slots hasher key) = some s ∧
          t'.cells hasher = t.cells hasher) ∨
        (lookup (t.cells hasher) key (slots hasher key) = none ∧ t.cells hasher s = .empty ∧
          Reaches (t.cells hasher) (slots hasher key) s ∧
          t'.cells hasher = write (t.cells hasher) s (.full key))) := by
  rw [put, putLoop_eq] at hRun
  obtain ⟨⟨s, isNew⟩, hSettle, rfl⟩ := Option.map_eq_some_iff.mp hRun
  have hLookup := lookup_eq_settle (t.cells hasher) key (slots hasher key)
  rw [hSettle, Option.bind_some] at hLookup
  refine ⟨s, ?_, ?_, ?_⟩
  · cases isNew <;> simp
  · intro j hj
    cases isNew <;> simp [Vec.get_set, hj]
  · cases isNew with
    | false =>
        refine Or.inl ⟨hLookup, ?_⟩
        rw [if_neg Bool.false_ne_true, cells_set]
        exact write_eq_self rfl
    | true =>
        obtain ⟨hCell, hReach⟩ := settle_new hSettle
        refine Or.inr ⟨hLookup, hCell, hReach, ?_⟩
        rw [if_pos rfl, cells_set, HASH_ELEMENT.cell, if_neg Bool.false_ne_true, if_pos rfl]

theorem put_isSome_iff : (t.put hasher key value).isSome = true ↔
    (lookup (t.cells hasher) key (slots hasher key)).isSome = true ∨
      ∃ s ∈ slots hasher key, t.cells hasher s = .empty := by
  rw [put, putLoop_eq, Option.isSome_map, settle_isSome_iff]

/-- The slot of a removed key does not look like the slot of the key 0, unless
that key has the hash of unused slots. -/
theorem remove_eq (hasher : Int32 → UInt64) (t : MyHashMap) (key : Int32)
    (h0 : (lookup (t.cells hasher) key (slots hasher key)).isSome = true →
      hasher 0 ≠ unused) :
    ((t.remove hasher key).cells hasher = (lookup (t.cells hasher) key (slots hasher key)).elim
      (t.cells hasher) fun s => write (t.cells hasher) s .tomb) ∧
    ∀ j, ((t.remove hasher key).pElements.get j).data = (t.pElements.get j).data := by
  rw [remove, find_eq]
  cases hFind : lookup (t.cells hasher) key (probes (hasher key)) with
  | none => exact ⟨rfl, fun _ => rfl⟩
  | some s =>
      have hHash := h0 (Option.isSome_of_mem hFind)
      obtain ⟨k, hCell, _⟩ := lookup_sound hFind
      have hUsed : (t.pElements.get s).empty = false := by
        cases hEmpty : (t.pElements.get s).empty with
        | false => rfl
        | true => simp [cells, HASH_ELEMENT.cell, hEmpty] at hCell
      constructor
      · rw [cells_set, HASH_ELEMENT.cell, if_neg (by simp [hUsed]), if_neg (Ne.symm hHash)]
        rfl
      · intro j
        dsimp only
        rw [Vec.get_set]
        split_ifs with hj
        · rw [hj]
        · rfl

end MyHashMap

/-- A hash map and the map that it stands for. -/
structure HashMapWorld where
  table : MyHashMap
  entries : Int32 → Option Int32

namespace HashMapWorld

inductive Call where
  | put (key value : Int32)
  | get (key : Int32)
  | remove (key : Int32)

variable (hasher : Int32 → UInt64)

def step : Step HashMapWorld Call
  | w, .put key value =>
      (w.table.put hasher key value).map fun table =>
        ⟨table, Function.update w.entries key (some value)⟩
  | w, .get _ => some w
  | w, .remove key => some ⟨w.table.remove hasher key, Function.update w.entries key none⟩

def start : HashMapWorld := ⟨MyHashMap.new, fun _ => none⟩

def Agrees (w : HashMapWorld) : Prop :=
  ∀ key, w.table.get hasher key = (w.entries key).getD (-1)

def Behaves (calls : List Call) : Prop :=
  (∃ finish, run (step hasher) start calls = some finish) ∧
    Always (step hasher) (Agrees hasher) start calls

/-- One of the slots of a new key was never used. Nothing is removed if the
slots of removed keys look like the slot of the key 0. -/
def Accepts (w : HashMapWorld) : Call → Prop
  | .put key _ => w.entries key = none → ∃ s ∈ slots hasher key, w.table.cells hasher s = .empty
  | .get _ => True
  | .remove key => w.entries key ≠ none → hasher 0 ≠ unused

structure Sound (w : HashMapWorld) : Prop where
  inv : Invariant (slots hasher) (w.table.cells hasher)
  agrees : ∀ key, (lookup (w.table.cells hasher) key (slots hasher key)).map
    (fun s => (w.table.pElements.get s).data) = w.entries key

variable {hasher} {w : HashMapWorld} {key : Int32}

theorem start_sound : Sound hasher start where
  inv := invariant_of_empty (MyHashMap.cells_new hasher)
  agrees key := by
    have hNone : lookup (start.table.cells hasher) key (slots hasher key) = none :=
      lookup_of_empty (MyHashMap.cells_new hasher) _ _
    rw [hNone]
    rfl

theorem Sound.agrees_get (h : Sound hasher w) : Agrees hasher w := by
  intro key
  rw [MyHashMap.get, MyHashMap.find_eq, ← h.agrees]
  cases lookup (w.table.cells hasher) key (slots hasher key) <;> rfl

theorem Sound.found_iff (h : Sound hasher w) :
    (lookup (w.table.cells hasher) key (slots hasher key)).isSome = true ↔
      w.entries key ≠ none := by
  rw [← h.agrees]
  cases lookup (w.table.cells hasher) key (slots hasher key) <;> simp

theorem Sound.put (h : Sound hasher w) {value : Int32} {table : MyHashMap}
    (hRun : w.table.put hasher key value = some table) :
    Sound hasher ⟨table, Function.update w.entries key (some value)⟩ := by
  obtain ⟨s, hData, hOther, hCases⟩ := MyHashMap.put_cases hRun
  -- every key is found where it was, and the key of the call in the slot `s`
  have hNew : Invariant (slots hasher) (table.cells hasher) ∧ ∀ k,
      lookup (table.cells hasher) k (slots hasher k) =
        if k = key then some s else lookup (w.table.cells hasher) k (slots hasher k) := by
    rcases hCases with ⟨hFound, hCells⟩ | ⟨hNone, hEmpty, hReach, hCells⟩
    · rw [hCells]
      refine ⟨h.inv, fun k => ?_⟩
      split_ifs with hKey
      · rw [hKey, hFound]
      · rfl
    · rw [hCells]
      exact ⟨h.inv.insert hNone hReach, h.inv.lookup_insert hNone hEmpty hReach⟩
  have hSlot := (hNew.1.lookup_eq_some_iff key s).mp (by rw [hNew.2, if_pos rfl])
  refine ⟨hNew.1, fun k => ?_⟩
  dsimp only
  rw [Function.update_apply, hNew.2]
  split_ifs with hKey
  · rw [Option.map_some, hData]
  · rw [← h.agrees]
    refine Option.map_congr fun j hj => ?_
    have hSame := hNew.2 k
    rw [if_neg hKey, hj, hNew.1.lookup_eq_some_iff] at hSame
    rw [hOther j]
    rintro rfl
    exact hKey (Cell.full.inj (hSame.symm.trans hSlot))

theorem Sound.remove (h : Sound hasher w) (key : Int32)
    (hHash : w.entries key ≠ none → hasher 0 ≠ unused) :
    Sound hasher ⟨w.table.remove hasher key, Function.update w.entries key none⟩ := by
  obtain ⟨hCells, hData⟩ := MyHashMap.remove_eq hasher w.table key fun hFound =>
    hHash (h.found_iff.mp hFound)
  have hNew : Invariant (slots hasher) ((w.table.remove hasher key).cells hasher) ∧ ∀ k,
      lookup ((w.table.remove hasher key).cells hasher) k (slots hasher k) =
        if k = key then none else lookup (w.table.cells hasher) k (slots hasher k) := by
    cases hFind : lookup (w.table.cells hasher) key (slots hasher key) with
    | none =>
        rw [hFind, Option.elim_none] at hCells
        rw [hCells]
        refine ⟨h.inv, fun k => ?_⟩
        split_ifs with hKey
        · rw [hKey, hFind]
        · rfl
    | some s =>
        rw [hFind, Option.elim_some] at hCells
        rw [hCells]
        refine ⟨h.inv.write_tomb s, h.inv.lookup_write_tomb ?_⟩
        exact (h.inv.lookup_eq_some_iff key s).mp hFind
  refine ⟨hNew.1, fun k => ?_⟩
  dsimp only
  rw [Function.update_apply, hNew.2]
  split_ifs
  · rfl
  · simp only [hData]
    exact h.agrees k

theorem step_sound (w : HashMapWorld) (call : Call) (h : Sound hasher w)
    (hAccepts : w.Accepts hasher call) : ∃ w', step hasher w call = some w' ∧ Sound hasher w' := by
  cases call with
  | put key value =>
      have hRun : (w.table.put hasher key value).isSome = true := by
        rw [MyHashMap.put_isSome_iff, h.found_iff]
        exact (Decidable.em (w.entries key = none)).symm.imp_right hAccepts
      obtain ⟨table, hRun⟩ := Option.isSome_iff_exists.mp hRun
      exact ⟨_, Option.map_eq_some_iff.mpr ⟨table, hRun, rfl⟩, h.put hRun⟩
  | get key => exact ⟨w, rfl, h⟩
  | remove key => exact ⟨_, rfl, h.remove key hAccepts⟩

theorem behaves_of_guarded {calls : List Call}
    (hGuard : Guarded (step hasher) (Accepts hasher) start calls) : Behaves hasher calls := by
  obtain ⟨finish, hRun, _⟩ := run_of_guarded step_sound start_sound hGuard
  have hKeep : ∀ w call w', Sound hasher w → w.Accepts hasher call →
      step hasher w call = some w' → Sound hasher w' :=
    fun w call w' h hAccepts => of_exists_step (step_sound w call h hAccepts)
  refine ⟨⟨finish, hRun⟩, ?_⟩
  exact (always_of_guarded hKeep start_sound hGuard).mono fun w h => h.agrees_get

/-- What is not accepted fails, where the removed slots are told apart. -/
theorem guarded_of_behaves (hHash : hasher 0 ≠ unused) {calls : List Call}
    (h : Behaves hasher calls) : Guarded (step hasher) (Accepts hasher) start calls := by
  obtain ⟨⟨finish, hRun⟩, hAlways⟩ := h
  refine guarded_of_always (fun w call w' h hAccepts => of_exists_step
    (step_sound w call h hAccepts)) ?_ start_sound hRun hAlways
  intro w call w' hSound hNot hStep _
  cases call with
  | put key value =>
      obtain ⟨table, hPut, _⟩ := Option.map_eq_some_iff.mp hStep
      apply hNot
      intro hAbsent
      have hRoom := MyHashMap.put_isSome_iff.mp (Option.isSome_of_mem hPut)
      rw [hSound.found_iff] at hRoom
      exact hRoom.resolve_left (not_not_intro hAbsent)
  | get key => exact hNot trivial
  | remove key => exact hNot fun _ => hHash

end HashMapWorld

namespace HashSetWorld

variable {hasher : Int32 → UInt64} {w : HashSetWorld} {key : Int32}

/-- A key that comes and goes. -/
def rounds (key : Int32) : Nat → List Call
  | 0 => []
  | n + 1 => rounds key n ++ [.add key, .remove key]

theorem length_rounds (key : Int32) (n : Nat) : (rounds key n).length = 2 * n := by
  induction n with
  | zero => rfl
  | succ n ih =>
      rw [rounds, List.length_append, ih]
      rfl

/-- The first `n` slots of the key are buried and no other slot was used. -/
def Buried (hasher : Int32 → UInt64) (key : Int32) (n : Nat) (w : HashSetWorld) : Prop :=
  w.table.cells = fun s => if s ∈ (slots hasher key).take n then .tomb else .empty

/-- The slot where the buried part of the path ends. -/
theorem Buried.reaches {n s : Nat} (h : Buried hasher key n w)
    (hNodup : (slots hasher key).Nodup) (hEmpty : w.table.cells s = .empty)
    (hReach : Reaches w.table.cells (slots hasher key) s) :
    (slots hasher key).take (n + 1) = (slots hasher key).take n ++ [s] := by
  obtain ⟨front, back, hPath, hFront⟩ := hReach
  rw [h] at hEmpty hFront
  have hOut : s ∉ (slots hasher key).take n := by
    intro hMem
    simp [hMem] at hEmpty
  have hIn : ∀ j ∈ front, j ∈ (slots hasher key).take n := by
    intro j hj
    have hUsed := hFront j hj
    by_contra hNot
    simp [hNot] at hUsed
  rw [hPath] at hNodup hOut hIn ⊢
  have hLow : n ≤ front.length := by
    by_contra hLt
    obtain ⟨k, hk⟩ : ∃ k, n - front.length = k + 1 := ⟨n - front.length - 1, by omega⟩
    apply hOut
    rw [List.take_append, hk, List.take_succ_cons]
    exact List.mem_append_right _ List.mem_cons_self
  have hHigh : front.length ≤ n := by
    have hFrontNodup := (List.nodup_append.mp hNodup).1
    have hLength := (List.subperm_of_subset hFrontNodup hIn).length_le
    rw [List.length_take] at hLength
    omega
  obtain rfl : n = front.length := by omega
  rw [List.take_length_add_append, List.take_append_length]
  rfl

/-- Each round uses up one slot. -/
theorem exists_rounds (hHash : hasher key ≠ unused) (hNodup : (slots hasher key).Nodup) (n : Nat)
    (hn : n ≤ (slots hasher key).length) :
    ∃ w, run (step hasher) start (rounds key n) = some w ∧ Sound hasher w ∧
      w.members key = false ∧ Buried hasher key n w := by
  induction n with
  | zero =>
      refine ⟨start, rfl, start_sound, rfl, ?_⟩
      funext s
      rw [List.take_zero, if_neg List.not_mem_nil]
      exact MyHashSet.cells_new s
  | succ n ih =>
      obtain ⟨w, hRun, hSound, hAbsent, hBuried⟩ := ih (by omega)
      have hRoom : (slots hasher key)[n] ∈ slots hasher key ∧
          w.table.cells (slots hasher key)[n] = .empty := by
        refine ⟨List.getElem_mem _, ?_⟩
        rw [hBuried]
        dsimp only
        rw [if_neg]
        intro hMem
        obtain ⟨m, hm, hSame⟩ := List.mem_take_iff_getElem.mp hMem
        have hEq := hNodup.getElem_inj_iff.mp hSame
        omega
      obtain ⟨w₁, hAdd, hSound₁⟩ := step_sound w (.add key) hSound fun _ => ⟨hHash, _, hRoom⟩
      obtain ⟨table, hTable, rfl⟩ := Option.map_eq_some_iff.mp hAdd
      have hRemoved := hSound₁.remove key
      refine ⟨_, ?_, hRemoved, Function.update_self _ _ _, ?_⟩
      · rw [rounds, run_append, hRun, Option.bind_some, run_cons, hAdd]
        rfl
      · have hNone := hSound.absent_iff.mpr hAbsent
        rcases MyHashSet.add_cases hTable with ⟨hFound, _⟩ | ⟨_, s, hEmpty, hReach, hCells⟩
        · rw [hNone] at hFound
          cases hFound
        · rw [if_neg hHash] at hCells
          have hKey : lookup table.cells key (slots hasher key) = some s := by
            rw [hCells, hSound.inv.lookup_insert hNone hEmpty hReach, if_pos rfl]
          have hAfter := MyHashSet.remove_cells hasher table key
          rw [hKey, Option.elim_some, hCells] at hAfter
          rw [Buried, hAfter, hBuried.reaches hNodup hEmpty hReach]
          funext j
          rw [write, write, hBuried]
          by_cases hj : j = s <;> simp [hj]


theorem length_slots (hasher : Int32 → UInt64) (key : Int32) :
    (slots hasher key).length = PROBE_LEN := by
  rw [slots, probes, List.length_map, List.length_range]

/-- After as many rounds as there are slots the key cannot come back. -/
theorem run_exhausted (hasher : Int32 → UInt64) (key : Int32) (hHash : hasher key ≠ unused)
    (hNodup : (slots hasher key).Nodup) :
    run (step hasher) start (rounds key PROBE_LEN ++ [.add key]) = none := by
  have hLength := length_slots hasher key
  obtain ⟨w, hRun, hSound, hAbsent, hBuried⟩ :=
    exists_rounds hHash hNodup PROBE_LEN (Nat.le_of_eq hLength.symm)
  have hFails : w.table.add hasher key = none := by
    rw [← Option.isNone_iff_eq_none, ← Option.not_isSome, Bool.not_eq_true', ← Bool.not_eq_true,
      MyHashSet.add_isSome_iff, hSound.absent_iff.mpr hAbsent]
    rintro (hFound | ⟨s, hMem, hEmpty⟩)
    · cases hFound
    · rw [hBuried, ← hLength, List.take_length] at hEmpty
      simp [hMem] at hEmpty
  rw [run_append, hRun, Option.bind_some, run_cons, step, hFails]
  rfl

end HashSetWorld

/-- The set and the map, over every sequence of calls. -/
theorem designHash_behaves (hasher : Int32 → UInt64) (calls : List HashSetWorld.Call)
    (mapCalls : List HashMapWorld.Call) :
    (HashSetWorld.Behaves hasher calls ↔
      Guarded (HashSetWorld.step hasher) (HashSetWorld.Accepts hasher) HashSetWorld.start calls) ∧
    (Guarded (HashMapWorld.step hasher) (HashMapWorld.Accepts hasher) HashMapWorld.start mapCalls →
      HashMapWorld.Behaves hasher mapCalls) ∧
    (hasher 0 ≠ unused → HashMapWorld.Behaves hasher mapCalls →
      Guarded (HashMapWorld.step hasher) (HashMapWorld.Accepts hasher) HashMapWorld.start
        mapCalls) :=
  ⟨HashSetWorld.behaves_iff hasher calls, HashMapWorld.behaves_of_guarded,
    fun hHash h => HashMapWorld.guarded_of_behaves hHash h⟩

/-- The hash of an integer is the integer. -/
def identityHash (key : Int32) : UInt64 := key.toInt64.toUInt64

/-- One key, added and removed as often as it has slots, is not added again. -/
theorem designHash_insert_fails : ∃ calls : List HashSetWorld.Call, calls.length ≤ 10000 ∧
    calls = HashSetWorld.rounds 1 140 ++ [HashSetWorld.Call.add 1] ∧
      ¬HashSetWorld.Behaves identityHash calls := by
  refine ⟨_, ?_, rfl, ?_⟩
  · rw [List.length_append, HashSetWorld.length_rounds]
    decide
  · rintro ⟨⟨finish, hRun⟩, _⟩
    have hNodup : (slots identityHash 1).Nodup := by decide +kernel
    have hNone := HashSetWorld.run_exhausted identityHash 1 (by decide) hNodup
    rw [PROBE_LEN, hRun] at hNone
    cases hNone

end CppPerf.HashTable
