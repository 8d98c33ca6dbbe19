import CppPerf.Semantics.Run
import Mathlib.Data.List.Basic
import Mathlib.Logic.Function.Basic

/-! The two classes of `atomic_set.cpp`. The three maps `data1`, `data2` and
`data3` are one map from the kind of a message. A map creates what is missing
on access, so it is read like a function. -/
namespace CppPerf.Feed

inductive Kind where
  | calc_data_1
  | calc_data_2
  | ref_data
deriving DecidableEq

structure Data where
  cat_id : UInt32
  ref_seq_id : UInt32
  payload : UInt32

structure Message where
  kind : Kind
  data : Data

abbrev Store := Kind → UInt32 → List Data

/-- `push_back` into the store of the kind. -/
def Store.push (store : Store) (m : Message) : Store := fun kind cat_id =>
  if kind = m.kind ∧ cat_id = m.data.cat_id then store kind cat_id ++ [m.data]
  else store kind cat_id

/-- A map of maps with one entry changed. -/
def setEntry {V : Type*} (map : UInt32 → UInt32 → V) (cat_id seq_id : UInt32) (value : V) :
    UInt32 → UInt32 → V :=
  Function.update map cat_id (Function.update (map cat_id) seq_id value)

theorem setEntry_apply {V : Type*} (map : UInt32 → UInt32 → V) (cat_id seq_id : UInt32) (value : V)
    (cat_id' seq_id' : UInt32) :
    setEntry map cat_id seq_id value cat_id' seq_id' =
      if cat_id' = cat_id ∧ seq_id' = seq_id then value else map cat_id' seq_id' := by
  have hPair := congrFun (Function.uncurry_update_update map cat_id seq_id value)
    (cat_id', seq_id')
  simp only [Function.update_apply (Function.uncurry map), Prod.mk.injEq] at hPair
  exact hPair

structure AtomicSet where
  data : Store
  msg_seq_count : UInt32 → UInt32 → Nat
  atomic_set : UInt32 → List Int32

namespace AtomicSet

def initial : AtomicSet := ⟨fun _ _ => [], fun _ _ => 0, fun _ => []⟩

/-- The two calls of `remove_if`, and `erase`. -/
def removeUpTo (seq_id : UInt32) (d : List Data) : List Data :=
  (d.filter fun d => ¬d.ref_seq_id < seq_id).filter fun d => ¬d.ref_seq_id = seq_id

/-- An erased count is read as 0. -/
def send_atomic (a : AtomicSet) (cat_id seq_id : UInt32) : AtomicSet :=
  let count := a.msg_seq_count cat_id seq_id + 1
  if count < 3 then { a with msg_seq_count := setEntry a.msg_seq_count cat_id seq_id count }
  else
    { data := fun kind => Function.update (a.data kind) cat_id
        (removeUpTo seq_id (a.data kind cat_id))
      msg_seq_count := setEntry a.msg_seq_count cat_id seq_id 0
      atomic_set := Function.update a.atomic_set cat_id
        (a.atomic_set cat_id ++ [seq_id.toInt32]) }

def add_meesage (a : AtomicSet) (m : Message) : AtomicSet :=
  { a with data := a.data.push m }.send_atomic m.data.cat_id m.data.ref_seq_id

def get_atomic_Sets (a : AtomicSet) (cat_id : UInt32) : List Int32 := a.atomic_set cat_id

end AtomicSet

structure AtomicSet2 where
  data : Store
  atomic_set : UInt32 → List Int32

namespace AtomicSet2

def initial : AtomicSet2 := ⟨fun _ _ => [], fun _ => []⟩

/-- The three queues of a category. -/
abbrev Queues := Kind → List Data

/-- The condition of the loop: the fronts, if no queue is empty. -/
def fronts (d : Queues) : Option (Data × Data × Data) :=
  match d .calc_data_1, d .calc_data_2, d .ref_data with
  | d1 :: _, d2 :: _, d3 :: _ => some (d1, d2, d3)
  | _, _, _ => none

def largest (d1 d2 d3 : Data) : UInt32 :=
  max d1.ref_seq_id (max d2.ref_seq_id d3.ref_seq_id)

/-- The three inner loops. -/
def popBelow (d : Queues) (largest : UInt32) : Queues := fun kind =>
  (d kind).dropWhile fun d => d.ref_seq_id < largest

/-- The outer loop. Every turn pops something. -/
def sendLoop : Nat → Queues → List Int32 → Queues × List Int32
  | 0, d, atomic_set => (d, atomic_set)
  | fuel + 1, d, atomic_set =>
      match fronts d with
      | none => (d, atomic_set)
      | some (d1, d2, d3) =>
          let d := popBelow d (largest d1 d2 d3)
          match fronts d with
          | none => (d, atomic_set)
          | some (d1, d2, d3) =>
              if d1.ref_seq_id = d2.ref_seq_id ∧ d2.ref_seq_id = d3.ref_seq_id then
                sendLoop fuel (fun kind => (d kind).tail)
                  (atomic_set ++ [d3.ref_seq_id.toInt32])
              else sendLoop fuel d atomic_set

def queued (d : Queues) : Nat :=
  (d .calc_data_1).length + (d .calc_data_2).length + (d .ref_data).length

def send_atomic (a : AtomicSet2) (cat_id : UInt32) : AtomicSet2 :=
  let d : Queues := fun kind => a.data kind cat_id
  let result := sendLoop (queued d) d (a.atomic_set cat_id)
  { data := fun kind => Function.update (a.data kind) cat_id (result.1 kind)
    atomic_set := Function.update a.atomic_set cat_id result.2 }

def add_meesage (a : AtomicSet2) (m : Message) : AtomicSet2 :=
  { a with data := a.data.push m }.send_atomic m.data.cat_id

def get_atomic_Sets (a : AtomicSet2) (cat_id : UInt32) : List Int32 := a.atomic_set cat_id

end AtomicSet2

/-- All messages, oldest first. -/
def AtomicSet.receive (messages : List Message) : AtomicSet :=
  messages.foldl AtomicSet.add_meesage .initial

def AtomicSet2.receive (messages : List Message) : AtomicSet2 :=
  messages.foldl AtomicSet2.add_meesage .initial

end CppPerf.Feed

/-! `AtomicSet` publishes an id with its third message, whatever the kinds of
the three are. `AtomicSet2` needs a message of each kind. -/
namespace CppPerf.Feed.AtomicSet

open Transition

/-- The kinds that have come with an id since it was last published, and
whether some id was published without all three. -/
structure World where
  a : AtomicSet
  since : UInt32 → UInt32 → List Kind
  incomplete : Bool

namespace World

def initial : World := ⟨.initial, fun _ _ => [], false⟩

/-- The kinds since the last publication, with the new message. -/
def kinds (w : World) (m : Message) : List Kind :=
  m.kind :: w.since m.data.cat_id m.data.ref_seq_id

def allKinds (kinds : List Kind) : Bool :=
  kinds.contains .calc_data_1 && kinds.contains .calc_data_2 && kinds.contains .ref_data

def step (w : World) (m : Message) : Option World :=
  let a := w.a.add_meesage m
  if a.atomic_set m.data.cat_id = w.a.atomic_set m.data.cat_id then
    some ⟨a, setEntry w.since m.data.cat_id m.data.ref_seq_id (w.kinds m), w.incomplete⟩
  else
    some ⟨a, setEntry w.since m.data.cat_id m.data.ref_seq_id [],
      w.incomplete || !allKinds (w.kinds m)⟩

/-- No id was published before all three kinds had come. -/
def PublishesComplete (w : World) : Prop := w.incomplete = false

/-- The third message of an id since its last publication is of the kind that
the first two have left. -/
def ThirdKind (w : World) (m : Message) : Prop :=
  (w.since m.data.cat_id m.data.ref_seq_id).length = 2 → (w.kinds m).Nodup

/-- The invariant: the counter counts messages. -/
structure Counted (w : World) : Prop where
  count : ∀ cat_id id, w.a.msg_seq_count cat_id id = (w.since cat_id id).length
  few : ∀ cat_id id, (w.since cat_id id).length < 3
  complete : w.incomplete = false

variable {w w' : World} {m : Message}

/-- Three messages are of all kinds exactly if their kinds differ. -/
theorem allKinds_iff_nodup {kinds : List Kind} (h : kinds.length = 3) :
    allKinds kinds = true ↔ kinds.Nodup := by
  obtain ⟨k1, k2, k3, rfl⟩ := List.length_eq_three.mp h
  cases k1 <;> cases k2 <;> cases k3 <;> decide

/-- What a message does to the counters. -/
theorem add_meesage_cases (a : AtomicSet) (m : Message) :
    (a.msg_seq_count m.data.cat_id m.data.ref_seq_id + 1 < 3 ∧
      (a.add_meesage m).atomic_set = a.atomic_set ∧
      (a.add_meesage m).msg_seq_count = setEntry a.msg_seq_count m.data.cat_id
        m.data.ref_seq_id (a.msg_seq_count m.data.cat_id m.data.ref_seq_id + 1)) ∨
    (¬a.msg_seq_count m.data.cat_id m.data.ref_seq_id + 1 < 3 ∧
      (a.add_meesage m).atomic_set m.data.cat_id ≠ a.atomic_set m.data.cat_id ∧
      (a.add_meesage m).msg_seq_count = setEntry a.msg_seq_count m.data.cat_id
        m.data.ref_seq_id 0) := by
  rw [add_meesage, send_atomic]
  dsimp only
  split_ifs with hOpen
  · exact Or.inl ⟨hOpen, rfl, rfl⟩
  · refine Or.inr ⟨hOpen, ?_, rfl⟩
    dsimp only
    rw [Function.update_self]
    exact fun hSame => absurd (congrArg List.length hSame) (by simp)

/-- An entry that changes along with the counter still counts. -/
theorem Counted.setEntry (h : w.Counted) {kinds : List Kind} (hFew : kinds.length < 3)
    {a : AtomicSet}
    (hCount : a.msg_seq_count = setEntry w.a.msg_seq_count m.data.cat_id m.data.ref_seq_id
      kinds.length) {incomplete : Bool} (hComplete : incomplete = false) :
    (⟨a, Feed.setEntry w.since m.data.cat_id m.data.ref_seq_id kinds, incomplete⟩ :
      World).Counted := by
  refine ⟨fun cat_id id => ?_, fun cat_id id => ?_, hComplete⟩
  · dsimp only
    rw [hCount, setEntry_apply, setEntry_apply, h.count]
    split_ifs <;> rfl
  · dsimp only
    rw [setEntry_apply]
    split_ifs
    · exact hFew
    · exact h.few cat_id id

theorem Counted.step (h : w.Counted) (hGuard : w.ThirdKind m) (hStep : w.step m = some w') :
    w'.Counted := by
  have hCount := h.count m.data.cat_id m.data.ref_seq_id
  have hLength : (w.kinds m).length =
      w.a.msg_seq_count m.data.cat_id m.data.ref_seq_id + 1 := by
    rw [kinds, List.length_cons, hCount]
  rw [World.step] at hStep
  rcases add_meesage_cases w.a m with ⟨hOpen, hSame, hNext⟩ | ⟨hLast, hPublished, hNext⟩
  · rw [if_pos (congrFun hSame _)] at hStep
    obtain rfl := Option.some.inj hStep
    exact h.setEntry (by omega) (by rw [hNext, hLength]) h.complete
  · rw [if_neg hPublished] at hStep
    obtain rfl := Option.some.inj hStep
    have hFew := h.few m.data.cat_id m.data.ref_seq_id
    have hAll := (allKinds_iff_nodup (by omega)).mpr (hGuard (by omega))
    have hComplete : (w.incomplete || !allKinds (w.kinds m)) = false := by
      rw [h.complete, hAll]
      rfl
    have hNone : ([] : List Kind).length < 3 := Nat.zero_lt_succ 2
    exact h.setEntry hNone hNext hComplete

theorem Counted.not_publishesComplete (h : w.Counted) (hBad : ¬w.ThirdKind m)
    (hStep : w.step m = some w') : ¬w'.PublishesComplete := by
  rw [ThirdKind, Classical.not_imp] at hBad
  obtain ⟨hTwo, hRepeat⟩ := hBad
  have hCount := h.count m.data.cat_id m.data.ref_seq_id
  rw [World.step] at hStep
  rcases add_meesage_cases w.a m with ⟨hOpen, hSame, hNext⟩ | ⟨hLast, hPublished, hNext⟩
  · omega
  · rw [if_neg hPublished] at hStep
    obtain rfl := Option.some.inj hStep
    have hLength : (w.kinds m).length = 3 := by rw [kinds, List.length_cons, hTwo]
    have hMissing : allKinds (w.kinds m) = false :=
      Bool.eq_false_iff.mpr ((allKinds_iff_nodup hLength).not.mpr hRepeat)
    rw [PublishesComplete, hMissing]
    simp

theorem initial_counted : initial.Counted :=
  ⟨fun _ _ => rfl, fun _ _ => Nat.zero_lt_succ 2, rfl⟩

/-- No id is published too early throughout a run if and only if the three
messages that publish an id are always of three kinds. -/
theorem publishesComplete_iff_thirdKind (messages : List Message) :
    Always World.step PublishesComplete initial messages ↔
      Guarded World.step ThirdKind initial messages := by
  have hTotal : ∀ (w : World) (m : Message), (w.step m).isSome := by
    intro w m
    rw [World.step]
    split_ifs <;> rfl
  obtain ⟨finish, hRun⟩ := run_of_total hTotal initial messages
  exact always_iff_guarded Counted (fun _ _ _ h hGuard hStep => h.step hGuard hStep)
    (fun _ h => h.complete) (fun _ _ _ h hBad hStep => h.not_publishesComplete hBad hStep)
    initial_counted hRun

/-- Three messages of one kind publish their id. -/
theorem one_kind_published :
    ∃ w, run World.step initial (List.replicate 3 ⟨.calc_data_1, 1, 7, 10⟩) = some w ∧
      w.a.get_atomic_Sets 1 = [7] ∧ ¬w.PublishesComplete := by
  refine ⟨_, rfl, by decide, ?_⟩
  rw [PublishesComplete, Bool.not_eq_false]
  rfl

end World
end CppPerf.Feed.AtomicSet
