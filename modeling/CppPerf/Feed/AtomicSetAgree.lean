import CppPerf.Feed.AtomicSet
import CppPerf.Semantics.Join
import Mathlib.Algebra.Ring.Nat
import Mathlib.Data.List.Induction
import Mathlib.Data.List.Sort

/-! `AtomicSet` counts the messages of an id, and `AtomicSet2` joins three
queues. As long as the ids of a kind increase within a category, both publish
the ids that have come with all three kinds. The ids are published as `int`. -/
namespace CppPerf.Feed

open Join

/-- The ids of a kind in a category, oldest first. -/
def received (messages : List Message) (kind : Kind) (cat_id : UInt32) : List UInt32 :=
  (messages.filter fun m => m.kind = kind ∧ m.data.cat_id = cat_id).map fun m => m.data.ref_seq_id

def Increasing (messages : List Message) : Prop :=
  ∀ kind cat_id, (received messages kind cat_id).Pairwise (· < ·)

/-- The ids that have come with all three kinds. -/
def complete (messages : List Message) (cat_id : UInt32) : List UInt32 :=
  (received messages .ref_data cat_id).filter fun id =>
    id ∈ received messages .calc_data_1 cat_id ∧ id ∈ received messages .calc_data_2 cat_id

variable {messages : List Message} {m : Message} {kind : Kind} {cat_id id : UInt32}

theorem forall_kind {p : Kind → Prop} :
    (∀ kind, p kind) ↔ p .calc_data_1 ∧ p .calc_data_2 ∧ p .ref_data := by
  constructor
  · intro h
    exact ⟨h _, h _, h _⟩
  · rintro ⟨h1, h2, h3⟩ kind
    cases kind with
    | calc_data_1 => exact h1
    | calc_data_2 => exact h2
    | ref_data => exact h3

theorem mem_complete :
    id ∈ complete messages cat_id ↔ ∀ kind, id ∈ received messages kind cat_id := by
  rw [complete, List.mem_filter, decide_eq_true_iff, forall_kind]
  tauto

theorem Increasing.complete (h : Increasing messages) (cat_id : UInt32) :
    (complete messages cat_id).Pairwise (· < ·) :=
  (h .ref_data cat_id).filter _

theorem received_append (messages : List Message) (m : Message) (kind : Kind) (cat_id : UInt32) :
    received (messages ++ [m]) kind cat_id =
      received messages kind cat_id ++
        if m.kind = kind ∧ m.data.cat_id = cat_id then [m.data.ref_seq_id] else [] := by
  rw [received, List.filter_append, List.map_append, received]
  congr 1
  by_cases hHere : m.kind = kind ∧ m.data.cat_id = cat_id
  · rw [if_pos hHere, List.filter_cons_of_pos (by simpa using hHere)]
    rfl
  · rw [if_neg hHere, List.filter_cons_of_neg (by simpa using hHere)]
    rfl

theorem Increasing.of_append (h : Increasing (messages ++ [m])) : Increasing messages := by
  intro kind cat_id
  have hAll := h kind cat_id
  rw [received_append] at hAll
  exact (List.pairwise_append.mp hAll).1

/-- The new id is larger than those before it. -/
theorem Increasing.lt_new (h : Increasing (messages ++ [m]))
    (hId : id ∈ received messages m.kind m.data.cat_id) : id < m.data.ref_seq_id := by
  have hAll := h m.kind m.data.cat_id
  rw [received_append, if_pos ⟨rfl, rfl⟩] at hAll
  exact (List.pairwise_append.mp hAll).2.2 id hId _ (List.mem_singleton.mpr rfl)

theorem Increasing.not_received (h : Increasing (messages ++ [m])) :
    m.data.ref_seq_id ∉ received messages m.kind m.data.cat_id :=
  fun hOld => UInt32.lt_irrefl _ (h.lt_new hOld)

/-! The counts. -/

def heard (messages : List Message) (cat_id id : UInt32) (kind : Kind) : Nat :=
  if id ∈ received messages kind cat_id then 1 else 0

/-- How many kinds have come with the id. -/
def seen (messages : List Message) (cat_id id : UInt32) : Nat :=
  heard messages cat_id id .calc_data_1 + heard messages cat_id id .calc_data_2 +
    heard messages cat_id id .ref_data

theorem heard_le (messages : List Message) (cat_id id : UInt32) (kind : Kind) :
    heard messages cat_id id kind ≤ 1 := by
  rw [heard]
  split_ifs
  · exact le_rfl
  · exact zero_le_one

theorem heard_eq_one : heard messages cat_id id kind = 1 ↔ id ∈ received messages kind cat_id := by
  simp [heard]

theorem mem_complete_iff_seen : id ∈ complete messages cat_id ↔ seen messages cat_id id = 3 := by
  have h1 := heard_le messages cat_id id .calc_data_1
  have h2 := heard_le messages cat_id id .calc_data_2
  have h3 := heard_le messages cat_id id .ref_data
  rw [mem_complete, forall_kind, ← heard_eq_one, ← heard_eq_one, ← heard_eq_one, seen]
  omega

theorem seen_le_two (hMissing : id ∉ received messages kind cat_id) :
    seen messages cat_id id ≤ 2 := by
  have h1 := heard_le messages cat_id id .calc_data_1
  have h2 := heard_le messages cat_id id .calc_data_2
  have h3 := heard_le messages cat_id id .ref_data
  have hNotAll : seen messages cat_id id ≠ 3 := fun hAll =>
    hMissing (mem_complete.mp (mem_complete_iff_seen.mpr hAll) kind)
  rw [seen] at hNotAll ⊢
  omega

/-- A new message is heard where it had not been heard. -/
theorem heard_append (hNew : m.data.ref_seq_id ∉ received messages m.kind m.data.cat_id) :
    heard (messages ++ [m]) cat_id id kind =
      heard messages cat_id id kind +
        if kind = m.kind ∧ cat_id = m.data.cat_id ∧ id = m.data.ref_seq_id then 1 else 0 := by
  by_cases hHere : m.kind = kind ∧ m.data.cat_id = cat_id
  · obtain ⟨rfl, rfl⟩ := hHere
    by_cases hId : id = m.data.ref_seq_id
    · subst hId
      simp [heard, received_append, hNew]
    · simp [heard, received_append, hId]
  · have hOther : ¬(kind = m.kind ∧ cat_id = m.data.cat_id ∧ id = m.data.ref_seq_id) :=
      fun h => hHere ⟨h.1.symm, h.2.1.symm⟩
    rw [if_neg hOther, add_zero, heard, heard, received_append, if_neg hHere, List.append_nil]

theorem seen_append (hNew : m.data.ref_seq_id ∉ received messages m.kind m.data.cat_id) :
    seen (messages ++ [m]) cat_id id =
      seen messages cat_id id +
        if cat_id = m.data.cat_id ∧ id = m.data.ref_seq_id then 1 else 0 := by
  simp only [seen, heard_append hNew]
  cases m.kind with
  | calc_data_1 => simp only [true_and, reduceCtorEq, false_and, if_false]; omega
  | calc_data_2 => simp only [true_and, reduceCtorEq, false_and, if_false]; omega
  | ref_data => simp only [true_and, reduceCtorEq, false_and, if_false]; omega

/-- The last of the three messages completes its id, which is the largest. -/
theorem complete_append (h : Increasing (messages ++ [m])) (cat_id : UInt32) :
    complete (messages ++ [m]) cat_id =
      if cat_id = m.data.cat_id ∧ seen messages cat_id m.data.ref_seq_id = 2 then
        complete messages cat_id ++ [m.data.ref_seq_id]
      else complete messages cat_id := by
  have hNew := h.not_received
  have hMem : ∀ id, id ∈ complete (messages ++ [m]) cat_id ↔ id ∈ complete messages cat_id ∨
      (cat_id = m.data.cat_id ∧ seen messages cat_id m.data.ref_seq_id = 2) ∧
        id = m.data.ref_seq_id := by
    intro id
    rw [mem_complete_iff_seen, mem_complete_iff_seen, seen_append hNew]
    by_cases hHere : cat_id = m.data.cat_id ∧ id = m.data.ref_seq_id
    · obtain ⟨rfl, rfl⟩ := hHere
      have hOld := seen_le_two hNew
      simp
      omega
    · rw [if_neg hHere, add_zero]
      tauto
  have hSorted := h.of_append.complete cat_id
  split_ifs with hLast
  · refine (h.complete cat_id).eq_of_mem_iff ?_ fun id => ?_
    · refine List.pairwise_append.mpr ⟨hSorted, List.pairwise_singleton _ _, ?_⟩
      intro id hId id' hId'
      obtain rfl := List.mem_singleton.mp hId'
      have hOld := mem_complete.mp hId m.kind
      rw [hLast.1] at hOld
      exact h.lt_new hOld
    · rw [hMem, List.mem_append, List.mem_singleton, and_iff_right hLast]
  · refine (h.complete cat_id).eq_of_mem_iff hSorted fun id => ?_
    rw [hMem]
    tauto

namespace AtomicSet

/-- The counts start again when an id is complete. -/
structure Counts (a : AtomicSet) (messages : List Message) : Prop where
  count : ∀ cat_id id, a.msg_seq_count cat_id id = seen messages cat_id id % 3
  published : ∀ cat_id, a.atomic_set cat_id = (complete messages cat_id).map UInt32.toInt32

variable {a : AtomicSet}

theorem Counts.add_meesage (h : a.Counts messages) (hIncreasing : Increasing (messages ++ [m])) :
    (a.add_meesage m).Counts (messages ++ [m]) := by
  have hNew := hIncreasing.not_received
  have hFew := seen_le_two hNew
  have hCount := h.count m.data.cat_id m.data.ref_seq_id
  rw [Nat.mod_eq_of_lt (by omega)] at hCount
  have hKept : ∀ count, (seen messages m.data.cat_id m.data.ref_seq_id + 1) % 3 = count →
      ∀ cat_id id, setEntry a.msg_seq_count m.data.cat_id m.data.ref_seq_id count cat_id id =
        seen (messages ++ [m]) cat_id id % 3 := by
    rintro count rfl cat_id id
    rw [setEntry_apply, seen_append hNew]
    split_ifs with hHere
    · rw [hHere.1, hHere.2]
    · rw [add_zero, h.count]
  have hComplete := complete_append hIncreasing
  rw [AtomicSet.add_meesage, send_atomic]
  dsimp only
  rw [hCount]
  split_ifs with hOpen
  · refine ⟨hKept _ (Nat.mod_eq_of_lt hOpen), fun cat_id => ?_⟩
    rw [hComplete, if_neg]
    · exact h.published cat_id
    · rintro ⟨rfl, hLast⟩
      omega
  · have hLast : seen messages m.data.cat_id m.data.ref_seq_id = 2 := by omega
    refine ⟨hKept 0 (by rw [hLast]), fun cat_id => ?_⟩
    dsimp only
    rw [hComplete]
    by_cases hCat : cat_id = m.data.cat_id
    · subst hCat
      rw [if_pos ⟨rfl, hLast⟩, Function.update_self, h.published, List.map_append]
      rfl
    · rw [if_neg fun hHere => hCat hHere.1, Function.update_of_ne hCat]
      exact h.published cat_id

theorem receive_append (messages : List Message) (m : Message) :
    receive (messages ++ [m]) = (receive messages).add_meesage m := List.foldl_concat ..

theorem counts_receive (h : Increasing messages) : (receive messages).Counts messages := by
  induction messages using List.reverseRecOn with
  | nil => exact ⟨fun _ _ => rfl, fun _ => rfl⟩
  | append_singleton messages m ih =>
      rw [receive_append]
      exact (ih h.of_append).add_meesage h

end AtomicSet

namespace AtomicSet2

/-- The streams of a category. -/
def streams (messages : List Message) (cat_id : UInt32) (kind : Kind) : List Nat :=
  (received messages kind cat_id).map UInt32.toNat

def keys (d : Queues) (kind : Kind) : List Nat := (d kind).map fun d => d.ref_seq_id.toNat

/-- The queues and the published ids of a category are a join of its streams. -/
def Joins (received : Kind → List Nat) (d : Queues) (atomic_set : List Int32) : Prop :=
  ∃ (gone : Kind → List Nat) (out : List UInt32),
    Joined received gone (keys d) (out.map UInt32.toNat) ∧
      atomic_set = out.map UInt32.toInt32

variable {received : Kind → List Nat} {d : Queues} {atomic_set : List Int32} {d1 d2 d3 : Data}

theorem fronts_eq_none (h : fronts d = none) : ∃ kind, d kind = [] := by
  by_contra hNone
  push Not at hNone
  obtain ⟨h1, h2, h3⟩ := forall_kind.mp hNone
  obtain ⟨d1, rest1, hd1⟩ := List.exists_cons_of_ne_nil h1
  obtain ⟨d2, rest2, hd2⟩ := List.exists_cons_of_ne_nil h2
  obtain ⟨d3, rest3, hd3⟩ := List.exists_cons_of_ne_nil h3
  rw [fronts, hd1, hd2, hd3] at h
  cases h

/-- The front of a kind. -/
def pick (d1 d2 d3 : Data) : Kind → Data
  | .calc_data_1 => d1
  | .calc_data_2 => d2
  | .ref_data => d3

theorem fronts_eq_some (h : fronts d = some (d1, d2, d3)) :
    ∀ kind, ∃ rest, d kind = pick d1 d2 d3 kind :: rest := by
  rw [fronts] at h
  split at h
  · rename_i e1 rest1 e2 rest2 e3 rest3 h1 h2 h3
    cases h
    exact forall_kind.mpr ⟨⟨_, h1⟩, ⟨_, h2⟩, ⟨_, h3⟩⟩
  · cases h

theorem max_eq (x y : UInt32) : max x y = if x ≤ y then y else x := rfl

theorem pick_le_largest (d1 d2 d3 : Data) (kind : Kind) :
    (pick d1 d2 d3 kind).ref_seq_id ≤ largest d1 d2 d3 := by
  cases kind <;> simp only [pick, largest, max_eq] <;> grind

theorem largest_eq_pick (d1 d2 d3 : Data) :
    ∃ kind, largest d1 d2 d3 = (pick d1 d2 d3 kind).ref_seq_id := by
  rw [largest, max_eq]
  split_ifs
  · rw [max_eq]
    split_ifs
    · exact ⟨.ref_data, rfl⟩
    · exact ⟨.calc_data_2, rfl⟩
  · exact ⟨.calc_data_1, rfl⟩

theorem keys_popBelow (d : Queues) (largest : UInt32) (kind : Kind) :
    keys (popBelow d largest) kind = (keys d kind).dropWhile (· < largest.toNat) := by
  rw [keys, keys, popBelow, List.dropWhile_map]
  congr 2

theorem Joins.popBelow (h : Joins received d atomic_set) (hFronts : fronts d = some (d1, d2, d3)) :
    Joins received (popBelow d (largest d1 d2 d3)) atomic_set := by
  obtain ⟨gone, out, hJoined, hOut⟩ := h
  obtain ⟨kind, hLargest⟩ := largest_eq_pick d1 d2 d3
  obtain ⟨rest, hHead⟩ := fronts_eq_some hFronts kind
  have hKey : keys d kind = (largest d1 d2 d3).toNat :: rest.map fun d => d.ref_seq_id.toNat := by
    rw [keys, hHead, List.map_cons, hLargest]
  have hDiscard := hJoined.discard hKey
  have hKeys : (fun kind => (keys d kind).dropWhile (· < (largest d1 d2 d3).toNat)) =
      keys (AtomicSet2.popBelow d (largest d1 d2 d3)) :=
    funext fun kind => (keys_popBelow d _ kind).symm
  rw [hKeys] at hDiscard
  exact ⟨_, out, hDiscard, hOut⟩

theorem Joins.publish (h : Joins received d atomic_set) (hFronts : fronts d = some (d1, d2, d3))
    (hSame : d1.ref_seq_id = d2.ref_seq_id ∧ d2.ref_seq_id = d3.ref_seq_id) :
    Joins received (fun kind => (d kind).tail) (atomic_set ++ [d3.ref_seq_id.toInt32]) := by
  obtain ⟨gone, out, hJoined, hOut⟩ := h
  have hHeads : ∀ kind, ∃ rest, keys d kind = d3.ref_seq_id.toNat :: rest := by
    intro kind
    obtain ⟨rest, hHead⟩ := fronts_eq_some hFronts kind
    have hId : (pick d1 d2 d3 kind).ref_seq_id = d3.ref_seq_id := by
      cases kind with
      | calc_data_1 => exact hSame.1.trans hSame.2
      | calc_data_2 => exact hSame.2
      | ref_data => rfl
    exact ⟨rest.map fun d => d.ref_seq_id.toNat, by rw [keys, hHead, List.map_cons, hId]⟩
  have hNonempty : Nonempty Kind := ⟨.ref_data⟩
  have hPublish := hJoined.publish hHeads
  have hTail : (fun kind => (keys d kind).tail) = keys fun kind => (d kind).tail :=
    funext fun kind => List.map_tail.symm
  have hMap : out.map UInt32.toNat ++ [d3.ref_seq_id.toNat] =
      (out ++ [d3.ref_seq_id]).map UInt32.toNat := by rw [List.map_append, List.map_singleton]
  rw [hTail, hMap] at hPublish
  exact ⟨_, _, hPublish, by rw [hOut, List.map_append, List.map_singleton]⟩

theorem queued_lt {d d' : Queues} (hAll : ∀ kind, (d' kind).length ≤ (d kind).length)
    (kind : Kind) (hLess : (d' kind).length < (d kind).length) : queued d' < queued d := by
  obtain ⟨h1, h2, h3⟩ := forall_kind.mp hAll
  rw [queued, queued]
  cases kind <;> omega

/-- A queue whose front is below the largest one loses its front. -/
theorem length_popBelow_lt {kind : Kind} {front : Data} {rest : List Data} {largest : UInt32}
    (hFront : d kind = front :: rest) (hBelow : front.ref_seq_id < largest) :
    (popBelow d largest kind).length < (d kind).length := by
  have hRest := List.length_dropWhile_le (fun d : Data => decide (d.ref_seq_id < largest)) rest
  rw [popBelow, hFront, List.dropWhile_cons_of_pos (by simpa using hBelow), List.length_cons]
  omega

theorem popBelow_eq_self {largest : UInt32}
    (h : ∀ kind, ∃ front rest, d kind = front :: rest ∧ ¬front.ref_seq_id < largest) :
    popBelow d largest = d := by
  funext kind
  obtain ⟨front, rest, hFront, hAbove⟩ := h kind
  rw [popBelow, hFront, List.dropWhile_cons_of_neg (by simpa using hAbove)]

/-- Fronts that differ do not all stay. -/
theorem queued_popBelow_lt {e1 e2 e3 : Data} (hFronts : fronts d = some (d1, d2, d3))
    (hNext : fronts (popBelow d (largest d1 d2 d3)) = some (e1, e2, e3))
    (hDiffer : ¬(e1.ref_seq_id = e2.ref_seq_id ∧ e2.ref_seq_id = e3.ref_seq_id)) :
    queued (popBelow d (largest d1 d2 d3)) < queued d := by
  have hHeads := fronts_eq_some hFronts
  have hSome : ∃ kind, (pick d1 d2 d3 kind).ref_seq_id < largest d1 d2 d3 := by
    by_contra hNone
    push Not at hNone
    have hSame : popBelow d (largest d1 d2 d3) = d := by
      apply popBelow_eq_self
      intro kind
      obtain ⟨rest, hHead⟩ := hHeads kind
      exact ⟨_, rest, hHead, hNone kind⟩
    rw [hSame, hFronts] at hNext
    obtain ⟨rfl, rfl, rfl⟩ : d1 = e1 ∧ d2 = e2 ∧ d3 = e3 := by simpa using hNext
    have hEqual : ∀ kind, (pick d1 d2 d3 kind).ref_seq_id = largest d1 d2 d3 := fun kind =>
      UInt32.le_antisymm (pick_le_largest d1 d2 d3 kind) (UInt32.not_lt.mp (hNone kind))
    obtain ⟨h1, h2, h3⟩ := forall_kind.mp hEqual
    exact hDiffer ⟨h1.trans h2.symm, h2.trans h3.symm⟩
  obtain ⟨kind, hBelow⟩ := hSome
  obtain ⟨rest, hHead⟩ := hHeads kind
  exact queued_lt (fun kind => List.length_dropWhile_le _ _) kind (length_popBelow_lt hHead hBelow)

theorem queued_tail_lt (largest : UInt32)
    (hFronts : fronts (popBelow d largest) = some (d1, d2, d3)) :
    queued (fun kind => (popBelow d largest kind).tail) < queued d := by
  have hAll : ∀ kind, (popBelow d largest kind).length ≤ (d kind).length :=
    fun kind => List.length_dropWhile_le _ _
  obtain ⟨rest, hHead⟩ := fronts_eq_some hFronts .ref_data
  have hOne := hAll .ref_data
  refine queued_lt (fun kind => ?_) .ref_data ?_
  · rw [List.length_tail]
    have hFew := hAll kind
    omega
  · rw [hHead, List.length_cons] at hOne
    rw [hHead, List.tail_cons]
    omega

/-- With a turn for each message in the queues, the loop ends. -/
theorem Joins.sendLoop {fuel : Nat} (h : Joins received d atomic_set) (hFuel : queued d ≤ fuel) :
    Joins received (sendLoop fuel d atomic_set).1 (sendLoop fuel d atomic_set).2 ∧
      ∃ kind, (sendLoop fuel d atomic_set).1 kind = [] := by
  induction fuel generalizing d atomic_set with
  | zero =>
      rw [queued] at hFuel
      have hNone : (d .ref_data).length = 0 := by omega
      exact ⟨h, .ref_data, List.eq_nil_of_length_eq_zero hNone⟩
  | succ fuel ih =>
      rw [AtomicSet2.sendLoop]
      cases hFronts : fronts d with
      | none => exact ⟨h, fronts_eq_none hFronts⟩
      | some front =>
          obtain ⟨d1, d2, d3⟩ := front
          have hPopped := h.popBelow hFronts
          dsimp only
          cases hNext : fronts (AtomicSet2.popBelow d (largest d1 d2 d3)) with
          | none => exact ⟨hPopped, fronts_eq_none hNext⟩
          | some next =>
              obtain ⟨e1, e2, e3⟩ := next
              dsimp only
              split_ifs with hSame
              · have hFewer := queued_tail_lt (largest d1 d2 d3) hNext
                exact ih (hPopped.publish hNext hSame) (by omega)
              · have hFewer := queued_popBelow_lt hFronts hNext hSame
                exact ih hPopped (by omega)

theorem streams_increasing (h : Increasing messages) (cat_id : UInt32) (kind : Kind) :
    (streams messages cat_id kind).Pairwise (· < ·) :=
  List.pairwise_map.mpr ((h kind cat_id).imp UInt32.lt_iff_toNat_lt.mp)

/-- A join with an empty queue has published the complete ids. -/
theorem Joins.complete (hIncreasing : Increasing messages)
    (h : Joins (streams messages cat_id) d atomic_set) (hEmpty : ∃ kind, d kind = []) :
    atomic_set = (complete messages cat_id).map UInt32.toInt32 := by
  obtain ⟨gone, out, hJoined, rfl⟩ := h
  obtain ⟨kind, hNone⟩ := hEmpty
  have hKeys : keys d kind = [] := by rw [keys, hNone, List.map_nil]
  have hSorted : out.Pairwise (· < ·) :=
    (List.pairwise_map.mp hJoined.sorted).imp UInt32.lt_iff_toNat_lt.mpr
  congr 1
  refine hSorted.eq_of_mem_iff (hIncreasing.complete cat_id) fun id => ?_
  have hMem := hJoined.mem_out_iff hKeys id.toNat
  rw [List.mem_map_of_injective fun _ _ => UInt32.toNat_inj.mp] at hMem
  rw [hMem, mem_complete]
  exact forall_congr' fun kind => List.mem_map_of_injective fun _ _ => UInt32.toNat_inj.mp

/-- Every category is a join, with the loop at its end. -/
def Joining (a : AtomicSet2) (messages : List Message) : Prop :=
  ∀ cat_id, Joins (streams messages cat_id) (fun kind => a.data kind cat_id)
      (a.atomic_set cat_id) ∧ ∃ kind, a.data kind cat_id = []

variable {a : AtomicSet2}

/-- The new message joins its queue. -/
theorem Joins.push {store : Store} (hIncreasing : Increasing (messages ++ [m]))
    (h : Joins (streams messages cat_id) (fun kind => store kind cat_id) atomic_set) :
    Joins (streams (messages ++ [m]) cat_id) (fun kind => store.push m kind cat_id)
      atomic_set := by
  obtain ⟨gone, out, hJoined, hOut⟩ := h
  let new : Kind → List Nat := fun kind =>
    if m.kind = kind ∧ m.data.cat_id = cat_id then [m.data.ref_seq_id.toNat] else []
  have hReceived : ∀ kind, streams (messages ++ [m]) cat_id kind =
      streams messages cat_id kind ++ new kind := by
    intro kind
    rw [streams, streams, received_append, List.map_append]
    congr 1
    dsimp only [new]
    split_ifs <;> rfl
  have hQueue : ∀ kind, keys (fun kind => store.push m kind cat_id) kind =
      keys (fun kind => store kind cat_id) kind ++ new kind := by
    intro kind
    rw [keys, keys, Store.push]
    dsimp only [new]
    by_cases hHere : m.kind = kind ∧ m.data.cat_id = cat_id
    · rw [if_pos hHere, if_pos ⟨hHere.1.symm, hHere.2.symm⟩, List.map_append, List.map_singleton]
    · rw [if_neg hHere, if_neg fun h => hHere ⟨h.1.symm, h.2.symm⟩, List.append_nil]
  exact ⟨gone, out, hJoined.receive hReceived hQueue (streams_increasing hIncreasing cat_id), hOut⟩

theorem Joining.add_meesage (h : a.Joining messages) (hIncreasing : Increasing (messages ++ [m])) :
    (a.add_meesage m).Joining (messages ++ [m]) := by
  intro cat_id
  obtain ⟨hJoins, hEmpty⟩ := h cat_id
  have hPushed := hJoins.push hIncreasing
  rw [AtomicSet2.add_meesage, send_atomic]
  dsimp only
  by_cases hCat : cat_id = m.data.cat_id
  · subst hCat
    simp only [Function.update_self]
    exact hPushed.sendLoop le_rfl
  · simp only [Function.update_of_ne hCat]
    refine ⟨hPushed, ?_⟩
    obtain ⟨kind, hNone⟩ := hEmpty
    exact ⟨kind, (if_neg fun hHere => hCat hHere.2).trans hNone⟩

theorem receive_append (messages : List Message) (m : Message) :
    receive (messages ++ [m]) = (receive messages).add_meesage m := List.foldl_concat ..

theorem joining_receive (h : Increasing messages) : (receive messages).Joining messages := by
  induction messages using List.reverseRecOn with
  | nil =>
      intro cat_id
      refine ⟨⟨fun _ => [], [], ?_, rfl⟩, .ref_data, rfl⟩
      exact ⟨fun _ => rfl, fun _ => List.Pairwise.nil, List.Pairwise.nil,
        fun x hx => absurd hx List.not_mem_nil, fun _ x hx => absurd hx List.not_mem_nil⟩
  | append_singleton messages m ih =>
      rw [receive_append]
      exact (ih h.of_append).add_meesage h

end AtomicSet2

/-- After every message both classes have published the increasing list of the
ids that have come with all three kinds, each as an `int`. -/
theorem get_atomic_Sets_agree (h : Increasing messages) (cat_id : UInt32) :
    ∃ ids : List UInt32, ids.Pairwise (· < ·) ∧
      (∀ id, id ∈ ids ↔ ∀ kind, id ∈ received messages kind cat_id) ∧
      (AtomicSet.receive messages).get_atomic_Sets cat_id = ids.map UInt32.toInt32 ∧
      (AtomicSet2.receive messages).get_atomic_Sets cat_id = ids.map UInt32.toInt32 := by
  obtain ⟨hJoins, hEmpty⟩ := AtomicSet2.joining_receive h cat_id
  exact ⟨complete messages cat_id, h.complete cat_id, fun _ => mem_complete,
    (AtomicSet.counts_receive h).published cat_id, hJoins.complete h hEmpty⟩

/-- An id that comes with all three kinds, in category 1. -/
def arrivals (seq_id : UInt32) : List Message :=
  [⟨.calc_data_1, 1, seq_id, 10⟩, ⟨.calc_data_2, 1, seq_id, 10⟩, ⟨.ref_data, 1, seq_id, 10⟩]

theorem received_arrivals (first second : UInt32) (kind : Kind) (cat_id : UInt32) :
    received (arrivals first ++ arrivals second) kind cat_id =
      if cat_id = 1 then [first, second] else [] := by
  by_cases hCat : cat_id = 1
  · subst hCat
    cases kind <;> rfl
  · have hOther : ¬1 = cat_id := Ne.symm hCat
    cases kind <;> simp [received, arrivals, hCat, hOther]

theorem increasing_arrivals {first second : UInt32} (h : first < second) :
    Increasing (arrivals first ++ arrivals second) := by
  intro kind cat_id
  rw [received_arrivals]
  split_ifs
  · exact List.pairwise_pair.mpr h
  · exact List.Pairwise.nil

/-- Two small ids are published as they are. -/
theorem small_ids_agree :
    (AtomicSet.receive (arrivals 3 ++ arrivals 4)).get_atomic_Sets 1 = [3, 4] ∧
      (AtomicSet2.receive (arrivals 3 ++ arrivals 4)).get_atomic_Sets 1 = [3, 4] := by
  obtain ⟨ids, hSorted, hMem, hFirst, hSecond⟩ :=
    get_atomic_Sets_agree (increasing_arrivals (by decide : (3 : UInt32) < 4)) 1
  have hIds : ids = [3, 4] := by
    refine hSorted.eq_of_mem_iff (by decide) fun id => ?_
    simp only [hMem, received_arrivals, if_true]
    exact ⟨fun h => h .ref_data, fun h _ => h⟩
  rw [hFirst, hSecond, hIds]
  exact ⟨rfl, rfl⟩

/-- An id from `2 ^ 31` on is published as a negative number. -/
theorem large_id_negative :
    Increasing (arrivals 1 ++ arrivals 2147483648) ∧
      (AtomicSet.receive (arrivals 1 ++ arrivals 2147483648)).get_atomic_Sets 1 =
        [1, -2147483648] ∧
      (AtomicSet2.receive (arrivals 1 ++ arrivals 2147483648)).get_atomic_Sets 1 =
        [1, -2147483648] ∧
      ¬((AtomicSet.receive (arrivals 1 ++ arrivals 2147483648)).get_atomic_Sets 1).Pairwise
        (· < ·) :=
  ⟨increasing_arrivals (by decide), by decide, by decide, by decide⟩

end CppPerf.Feed
