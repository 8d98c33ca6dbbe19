import CppPerf.Queue.MemoryRecycler
import Mathlib.Algebra.Ring.Nat

/-! Every item is in one place, and the reported figure is the length of the
two lists, as long as only `GetNewItem` hands items out and the statistics are
cleared while no item is out. `PopItem` does not count the items it hands out,
and its limit is one too high. -/
namespace CppPerf.Queue
namespace MemoryRecycler

open Heap LinkedList Transition

variable {T : Type*} {r r' : MemoryRecycler T} {curr head hands : List Nat}

/-- The two lists, and the items in the hands of the caller. -/
structure Shape (r : MemoryRecycler T) (curr head hands : List Nat) : Prop where
  currCells : IsList r.heap.next 0 r.currList curr
  headCells : IsList r.heap.next 0 r.m_head head
  owns : r.heap.Owns (curr ++ head ++ hands)

/-- So many items are available, and not too many were created. -/
structure Counted (r : MemoryRecycler T) (count : Nat) : Prop where
  available_eq : r.available = UInt32.ofNat count
  bounded : r.m_NewedItems ≤ r.m_maxItems

theorem countEntries_eq {next : Nat → Nat} {pE fuel : Nat} {cells : List Nat} (count : UInt32)
    (h : IsList next 0 pE cells) (hFuel : cells.length ≤ fuel) :
    countEntries next fuel pE count = some (count + UInt32.ofNat cells.length) := by
  induction cells generalizing pE fuel count with
  | nil =>
      obtain rfl : pE = 0 := h
      cases fuel <;> simp [countEntries]
  | cons cell rest ih =>
      obtain ⟨rfl, hNull, hRest⟩ := h
      cases fuel with
      | zero => cases hFuel
      | succ fuel =>
          have hEnough : rest.length ≤ fuel := Nat.le_of_succ_le_succ hFuel
          rw [countEntries, if_neg hNull, ih (count + 1) hRest hEnough, List.length_cons,
            UInt32.ofNat_add]
          congr 1
          grind

namespace Shape

theorem perm (h : r.Shape curr head hands) {hands' : List Nat} (hPerm : hands.Perm hands') :
    r.Shape curr head hands' :=
  ⟨h.currCells, h.headCells, h.owns.perm (hPerm.append_left _)⟩

theorem size_eq (h : r.Shape curr head hands) {fuel : Nat}
    (hFuel : curr.length + head.length ≤ fuel) :
    r.size fuel = some (UInt32.ofNat (curr.length + head.length)) := by
  rw [size, countEntries_eq 0 h.currCells (by omega), Option.bind_some,
    countEntries_eq _ h.headCells (by omega), UInt32.ofNat_add, UInt32.zero_add]

/-- An item goes to the front of `m_head`. -/
theorem pushEntry {p : Nat} (h : r.Shape curr head (p :: hands)) :
    (r.pushEntry p).Shape curr (p :: head) hands := by
  have hPerm : (curr ++ head ++ p :: hands).Perm (curr ++ p :: head ++ hands) := by
    simp only [List.append_assoc, List.cons_append]
    exact List.Perm.append_left curr List.perm_middle
  have hNodup := (h.owns.perm List.perm_middle).nodup
  have hOut := (List.nodup_cons.mp hNodup).1
  simp only [List.mem_append, not_or] at hOut
  refine ⟨NodeHeap.isList_storeNext h.currCells hOut.1.1, ⟨rfl, h.owns.nonnull p (by simp), ?_⟩, ?_⟩
  · simp only [MemoryRecycler.pushEntry, NodeHeap.next_storeNext_self]
    exact NodeHeap.isList_storeNext h.headCells hOut.1.2
  · exact (h.owns.storeNext (by simp) _).perm hPerm

theorem flush (h : r.Shape [] head hands) : r.flush.Shape head [] hands :=
  ⟨h.headCells, rfl, by rw [List.append_nil]; exact h.owns⟩

/-- The first item of `currList` goes to the caller. -/
theorem takeFirst {p : Nat} (h : r.Shape (p :: curr) head hands) :
    r.takeFirst.2 = .item p ∧ r.takeFirst.1.Shape curr head (p :: hands) := by
  obtain ⟨rfl, hNull, hRest⟩ := h.currCells
  have hSame := h.owns.touch_eq (p := r.currList) (by simp)
  refine ⟨rfl, ?_⟩
  simp only [MemoryRecycler.takeFirst, hSame]
  refine ⟨hRest, h.headCells, h.owns.perm ?_⟩
  simp only [List.cons_append]
  exact List.perm_middle.symm

theorem popHead {p : Nat} (h : r.Shape curr (p :: head) hands) :
    ({ r with heap := r.heap.touch r.m_head, m_head := r.heap.next r.m_head } :
      MemoryRecycler T).Shape curr head (p :: hands) := by
  obtain ⟨rfl, hNull, hRest⟩ := h.headCells
  have hSame := h.owns.touch_eq (p := r.m_head) (by simp)
  rw [hSame]
  refine ⟨h.currCells, hRest, h.owns.perm ?_⟩
  simp only [List.append_assoc, List.cons_append]
  exact List.Perm.append_left curr List.perm_middle.symm

theorem create [Inhabited T] {p : Nat} (h : r.Shape curr head hands) (hNull : p ≠ 0)
    (hNew : r.heap.allocated p = false) :
    ({ r with heap := r.heap.create p default } : MemoryRecycler T).Shape curr head
      (p :: hands) := by
  have hOut := h.owns.not_mem hNew
  simp only [List.mem_append, not_or] at hOut
  exact ⟨NodeHeap.isList_create h.currCells hOut.1.1, NodeHeap.isList_create h.headCells hOut.1.2,
    (h.owns.create hNew hNull default).perm List.perm_middle.symm⟩

end Shape

/-- What a call that hands out an item leaves behind, where `cells` were the
items before. The item comes from one of the lists, or it is new. -/
def Served (r : MemoryRecycler T) (cells hands curr head : List Nat) :
    MemoryRecycler T × Got → Prop
  | (r', .item p) => r'.Shape curr head (p :: hands) ∧
      (curr ++ head ++ p :: hands).Perm (if r.heap.allocated p then cells else p :: cells)
  | (r', .null) => r'.Shape curr head hands ∧ (curr ++ head ++ hands).Perm cells
  | (r', .thrown) => r'.Shape curr head hands ∧ (curr ++ head ++ hands).Perm cells

theorem takeFirst_served {p : Nat} (hs : r.Shape (p :: curr) head hands) :
    r.Served (p :: curr ++ head ++ hands) hands curr head r.takeFirst := by
  obtain ⟨hGot, hShape⟩ := hs.takeFirst
  have hOld : r.heap.allocated p = true := hs.owns.allocated p (by simp)
  rw [show r.takeFirst = (r.takeFirst.1, .item p) from Prod.ext rfl hGot]
  refine ⟨hShape, ?_⟩
  rw [if_pos hOld]
  simp only [List.cons_append]
  exact List.perm_middle

theorem takeFirst_counted (hn : r.Counted (curr.length + 1 + head.length)) :
    r.takeFirst.1.Counted (curr.length + head.length) := by
  refine ⟨?_, hn.bounded⟩
  have hCount := hn.available_eq
  rw [show curr.length + 1 + head.length = curr.length + head.length + 1 by omega,
    UInt32.ofNat_add] at hCount
  simp only [available, takeFirst] at hCount ⊢
  grind

/-- Nobody recycles an item while the only thread waits for one. -/
theorem waitForItem_spec (left : Nat) (hs : r.Shape [] [] hands) :
    r.Served hands hands [] [] (r.waitForItem left) ∧
      (r.Counted 0 → (r.waitForItem left).1.Counted 0) := by
  induction left generalizing r with
  | zero =>
      exact ⟨⟨⟨hs.currCells, hs.headCells, hs.owns⟩, List.Perm.refl _⟩, fun hn => ⟨hn.1, hn.2⟩⟩
  | succ left ih =>
      have hEmpty : r.flush.currList = 0 := hs.flush.currCells
      obtain ⟨hServed, hCounted⟩ := ih hs.flush
      simp only [waitForItem, hEmpty, ↓reduceIte]
      exact ⟨hServed, fun hn => hCounted ⟨hn.1, hn.2⟩⟩

theorem newItem_served [Inhabited T] {alloc : Option Nat} (hs : r.Shape curr head hands)
    (hAlloc : ∀ p ∈ alloc, p ≠ 0 ∧ r.heap.allocated p = false) :
    r.Served (curr ++ head ++ hands) hands curr head (r.newItem alloc) := by
  cases alloc with
  | none => exact ⟨hs, List.Perm.refl _⟩
  | some p =>
      obtain ⟨hNull, hNew⟩ := hAlloc p rfl
      refine ⟨hs.create hNull hNew, ?_⟩
      rw [if_neg (by rw [hNew]; exact Bool.false_ne_true)]
      exact List.perm_middle

theorem newItem_counted [Inhabited T] {count : Nat} (hn : r.Counted count) (alloc : Option Nat) :
    (r.newItem alloc).1.Counted count := by
  cases alloc with
  | none => exact hn
  | some p => exact ⟨hn.available_eq, hn.bounded⟩

theorem newItem_available [Inhabited T] (r : MemoryRecycler T) (alloc : Option Nat) :
    (r.newItem alloc).1.available = r.available := by
  cases alloc with
  | none => rfl
  | some p => rfl

theorem succ_le_of_lt {a b : UInt32} (h : a < b) : a + 1 ≤ b := by
  have hBound := b.toNat_lt
  rw [UInt32.lt_iff_toNat_lt] at h
  simp only [UInt32.le_iff_toNat_le, UInt32.toNat_add, UInt32.reduceToNat]
  omega

/-- `GetNewItem` with both lists empty. -/
theorem getFresh_spec [Inhabited T] {alloc : Option Nat} (hs : r.Shape [] [] hands)
    (hAlloc : ∀ p ∈ alloc, p ≠ 0 ∧ r.heap.allocated p = false) :
    r.Served hands hands [] []
        (if r.m_NewedItems ≥ r.m_maxItems then
          { r with m_exceedMaxCount := r.m_exceedMaxCount + 1 }.waitForItem 100
        else
          { r with
            m_NewedItems := r.m_NewedItems + 1
            m_NumItemsGet := r.m_NumItemsGet + 1 }.newItem alloc) ∧
      (r.Counted 0 →
        (if r.m_NewedItems ≥ r.m_maxItems then
          { r with m_exceedMaxCount := r.m_exceedMaxCount + 1 }.waitForItem 100
        else
          { r with
            m_NewedItems := r.m_NewedItems + 1
            m_NumItemsGet := r.m_NumItemsGet + 1 }.newItem alloc).1.Counted 0) := by
  split_ifs with hLimit
  · have hWait : ({ r with m_exceedMaxCount := r.m_exceedMaxCount + 1 } :
        MemoryRecycler T).Shape [] [] hands := ⟨hs.currCells, hs.headCells, hs.owns⟩
    obtain ⟨hServed, hCounted⟩ := waitForItem_spec 100 hWait
    exact ⟨hServed, fun hn => hCounted ⟨hn.1, hn.2⟩⟩
  · have hNew : ({ r with
        m_NewedItems := r.m_NewedItems + 1
        m_NumItemsGet := r.m_NumItemsGet + 1 } : MemoryRecycler T).Shape [] [] hands :=
      ⟨hs.currCells, hs.headCells, hs.owns⟩
    refine ⟨newItem_served hNew hAlloc, fun hn => newItem_counted ⟨?_, ?_⟩ alloc⟩
    · have hCount := hn.available_eq
      simp only [available] at hCount ⊢
      grind
    · exact succ_le_of_lt (UInt32.not_le.mp hLimit)

/-- `GetNewItem` keeps the figure and the limit. -/
theorem getNewItem_spec [Inhabited T] {alloc : Option Nat} (hs : r.Shape curr head hands)
    (hAlloc : ∀ p ∈ alloc, p ≠ 0 ∧ r.heap.allocated p = false) :
    ∃ curr' head',
      r.Served (curr ++ head ++ hands) hands curr' head' (r.getNewItem alloc) ∧
      (r.Counted (curr.length + head.length) →
        (r.getNewItem alloc).1.Counted (curr'.length + head'.length)) := by
  cases curr with
  | cons p curr =>
      have hSome : ¬r.currList = 0 := by
        rw [hs.currCells.head]
        exact hs.owns.nonnull p (by simp)
      simp only [getNewItem, if_neg hSome]
      exact ⟨curr, head, takeFirst_served hs, takeFirst_counted⟩
  | nil =>
      have hEmpty : r.currList = 0 := hs.currCells
      have hFlush := hs.flush
      simp only [getNewItem, if_pos hEmpty]
      cases head with
      | cons p head =>
          have hSome : ¬r.flush.currList = 0 := by
            rw [hFlush.currCells.head]
            exact hFlush.owns.nonnull p (by simp)
          have hServed := takeFirst_served hFlush
          rw [List.append_nil] at hServed
          rw [if_neg hSome]
          refine ⟨head, [], hServed, fun hn => takeFirst_counted ⟨?_, hn.bounded⟩⟩
          have hCount := hn.available_eq
          rwa [List.length_nil, Nat.zero_add, List.length_cons] at hCount
      | nil =>
          have hNone : r.flush.currList = 0 := hFlush.currCells
          rw [if_pos hNone]
          obtain ⟨hServed, hCounted⟩ := getFresh_spec hFlush hAlloc
          exact ⟨[], [], hServed, fun hn => hCounted ⟨hn.1, hn.2⟩⟩

/-- `PopItem` takes an item from `m_head` and leaves the figure as it is, or it
raises the figure and leaves the lists as they are. -/
theorem popItem_spec [Inhabited T] {alloc : Option Nat} (hs : r.Shape curr head hands)
    (hAlloc : ∀ p ∈ alloc, p ≠ 0 ∧ r.heap.allocated p = false) :
    ∃ head', r.Served (curr ++ head ++ hands) hands curr head' (r.popItem alloc) ∧
      (r.Counted (curr.length + head.length) →
        (r.popItem alloc).1.available = UInt32.ofNat (curr.length + head'.length) + 1) := by
  cases head with
  | cons p head =>
      have hOld : r.heap.allocated p = true := hs.owns.allocated p (by simp)
      have hHead : r.m_head = p := hs.headCells.head
      have hSome : r.m_head ≠ 0 := by
        rw [hHead]
        exact hs.owns.nonnull p (by simp)
      have hPopped := hs.popHead
      rw [popItem, if_pos hSome]
      rw [hHead] at hPopped ⊢
      refine ⟨head, ⟨hPopped, ?_⟩, fun hn => ?_⟩
      · rw [if_pos hOld]
        simp only [List.append_assoc, List.cons_append]
        exact List.Perm.append_left curr List.perm_middle
      · rw [← UInt32.ofNat_one, ← UInt32.ofNat_add]
        exact hn.available_eq
  | nil =>
      have hNone : ¬r.m_head ≠ 0 := not_not.mpr hs.headCells
      refine ⟨[], ?_⟩
      rw [popItem, if_neg hNone]
      split_ifs with hLimit
      · refine ⟨⟨hs, List.Perm.refl _⟩, fun hn => ?_⟩
        exact absurd hn.bounded (UInt32.not_le.mpr hLimit)
      · have hNew : ({ r with m_NewedItems := r.m_NewedItems + 1 } :
            MemoryRecycler T).Shape curr [] hands := ⟨hs.currCells, hs.headCells, hs.owns⟩
        refine ⟨newItem_served hNew hAlloc, fun hn => ?_⟩
        have hCount := hn.available_eq
        rw [newItem_available]
        simp only [available] at hCount ⊢
        grind

/-- `reset` moves the items of `currList` over. -/
theorem resetLoop_spec {pE fuel : Nat} {cells : List Nat} (hList : IsList r.heap.next 0 pE cells)
    (hHead : IsList r.heap.next 0 r.m_head head) (hOwns : r.heap.Owns (cells ++ head ++ hands))
    (hFuel : cells.length ≤ fuel) :
    ∃ r', r.resetLoop fuel pE = some r' ∧ r'.Shape [] (cells.reverse ++ head) hands ∧
      ∀ count, r.Counted count → r'.Counted count := by
  induction cells generalizing r pE head fuel with
  | nil =>
      obtain rfl : pE = 0 := hList
      refine ⟨{ r with currList := 0 }, ?_, ⟨rfl, hHead, hOwns⟩, fun _ hn => ⟨hn.1, hn.2⟩⟩
      cases fuel <;> simp only [resetLoop, ↓reduceIte]
  | cons cell rest ih =>
      obtain ⟨rfl, hNull, hRest⟩ := hList
      cases fuel with
      | zero => cases hFuel
      | succ fuel =>
          have hBehind : ({ r with currList := r.heap.next pE } : MemoryRecycler T).Shape rest head
              (pE :: hands) := ⟨hRest, hHead, hOwns.perm List.perm_middle.symm⟩
          have hPushed := hBehind.pushEntry
          simp only [resetLoop, if_neg hNull, hOwns.touch_eq (p := pE) (by simp)]
          obtain ⟨r', hReset, hShape, hCounted⟩ := ih
            (r := ({ r with currList := pE } : MemoryRecycler T).pushEntry pE)
            hPushed.currCells hPushed.headCells hPushed.owns (Nat.le_of_succ_le_succ hFuel)
          refine ⟨r', hReset, ?_, fun count hn => hCounted count ⟨hn.1, hn.2⟩⟩
          rw [List.reverse_cons, List.append_assoc, List.singleton_append]
          exact hShape

namespace World

/-- Every item is in one of the lists or in the hands of the caller, once. -/
def Conserved (w : World T) : Prop :=
  ∃ curr head, IsList w.r.heap.next 0 w.r.currList curr ∧
    IsList w.r.heap.next 0 w.r.m_head head ∧ (curr ++ head ++ w.hands).Perm w.created ∧
    w.created.Nodup

/-- The items are conserved, the limit is kept, and the reported figure is the
number of the items in the two lists. -/
structure Bookkept (w : World T) : Prop where
  conserved : w.Conserved
  bounded : w.r.m_NewedItems ≤ w.r.m_maxItems
  counted : w.r.size w.created.length = some w.r.available

/-- `PopItem` is not called, and the statistics are cleared only while as many
items were recycled as were handed out. -/
def CountsItems (w : World T) : Action → Prop
  | .getNewItem _ => True
  | .popItem _ => False
  | .recycleItem _ => True
  | .reset => True
  | .clearStats => w.r.m_NumItemsGet = w.r.m_NumItemsRecycled

/-- The invariant of every run. -/
structure Placed (w : World T) (curr head : List Nat) : Prop where
  shape : w.r.Shape curr head w.hands
  created_eq : (curr ++ head ++ w.hands).Perm w.created

/-- The invariant of the runs that count the items. -/
structure Consistent (w : World T) (curr head : List Nat) : Prop extends w.Placed curr head where
  counted : w.r.Counted (curr.length + head.length)

variable {w w' : World T}

@[simp] theorem receive_r (w : World T) (result : MemoryRecycler T × Got) :
    (w.receive result).r = result.1 := by
  obtain ⟨r', got⟩ := result
  cases got <;> rfl

namespace Placed

theorem length_le (hp : w.Placed curr head) : curr.length + head.length ≤ w.created.length := by
  have hLength := hp.created_eq.length_eq
  simp only [List.length_append] at hLength
  omega

theorem conserved (hp : w.Placed curr head) : w.Conserved :=
  ⟨curr, head, hp.shape.currCells, hp.shape.headCells, hp.created_eq,
    hp.created_eq.nodup_iff.mp hp.shape.owns.nodup⟩

theorem size_eq (hp : w.Placed curr head) :
    w.r.size w.created.length = some (UInt32.ofNat (curr.length + head.length)) :=
  hp.shape.size_eq hp.length_le

theorem receive (hp : w.Placed curr head) {result : MemoryRecycler T × Got}
    {curr' head' : List Nat}
    (hServed : w.r.Served (curr ++ head ++ w.hands) w.hands curr' head' result) :
    (w.receive result).Placed curr' head' := by
  obtain ⟨r', got⟩ := result
  cases got with
  | null => exact ⟨hServed.1, hServed.2.trans hp.created_eq⟩
  | thrown => exact ⟨hServed.1, hServed.2.trans hp.created_eq⟩
  | item p =>
      refine ⟨hServed.1, hServed.2.trans ?_⟩
      simp only [World.receive]
      split_ifs with hOld
      · exact hp.created_eq
      · exact hp.created_eq.cons p

theorem recycleItem (hp : w.Placed curr head) {item : Nat} (hItem : item ∈ w.hands) :
    ({ w with r := w.r.recycleItem item, hands := w.hands.erase item } : World T).Placed curr
      (item :: head) := by
  have hHands := List.perm_cons_erase hItem
  have hShape := hp.shape.perm hHands
  have hCounter : ({ w.r with m_NumItemsRecycled := w.r.m_NumItemsRecycled + 1 } :
      MemoryRecycler T).Shape curr head (item :: w.hands.erase item) :=
    ⟨hShape.currCells, hShape.headCells, hShape.owns⟩
  refine ⟨hCounter.pushEntry, List.Perm.trans ?_ hp.created_eq⟩
  refine List.Perm.trans ?_ (hHands.append_left (curr ++ head)).symm
  simp only [List.append_assoc, List.cons_append]
  exact List.Perm.append_left curr List.perm_middle.symm

theorem reset (hp : w.Placed curr head) :
    ∃ r', w.r.reset w.created.length = some r' ∧
      ({ w with r := r' } : World T).Placed [] (curr.reverse ++ head) ∧
      ∀ count, w.r.Counted count → r'.Counted count := by
  have hFuel := hp.length_le
  obtain ⟨r', hReset, hShape, hCounted⟩ := resetLoop_spec
    hp.shape.currCells hp.shape.headCells hp.shape.owns
    (show curr.length ≤ w.created.length by omega)
  refine ⟨r', hReset, ⟨hShape, List.Perm.trans ?_ hp.created_eq⟩, hCounted⟩
  exact ((List.reverse_perm curr).append_right head).append_right w.hands

theorem clearStats (hp : w.Placed curr head) :
    ({ w with r := w.r.clearStats } : World T).Placed curr head :=
  ⟨⟨hp.shape.currCells, hp.shape.headCells, hp.shape.owns⟩, hp.created_eq⟩

theorem step [Inhabited T] (hp : w.Placed curr head) {action : Action}
    (hStep : w.step action = some w') : ∃ curr' head', w'.Placed curr' head' := by
  cases action with
  | getNewItem alloc =>
      obtain ⟨hAlloc, rfl⟩ := of_ite_eq_some hStep
      obtain ⟨curr', head', hServed, _⟩ := getNewItem_spec hp.shape hAlloc
      exact ⟨curr', head', hp.receive hServed⟩
  | popItem alloc =>
      obtain ⟨hAlloc, rfl⟩ := of_ite_eq_some hStep
      obtain ⟨head', hServed, _⟩ := popItem_spec hp.shape hAlloc
      exact ⟨curr, head', hp.receive hServed⟩
  | recycleItem item =>
      obtain ⟨hItem, rfl⟩ := of_ite_eq_some hStep
      exact ⟨curr, item :: head, hp.recycleItem hItem⟩
  | reset =>
      obtain ⟨r', hReset, hAfter, _⟩ := hp.reset
      simp only [World.step, hReset, Option.map_some] at hStep
      obtain rfl := Option.some.inj hStep
      exact ⟨[], curr.reverse ++ head, hAfter⟩
  | clearStats =>
      obtain rfl := Option.some.inj hStep
      exact ⟨curr, head, hp.clearStats⟩

end Placed

namespace Consistent

theorem bookkept (hc : w.Consistent curr head) : w.Bookkept where
  conserved := hc.conserved
  bounded := hc.counted.bounded
  counted := by
    rw [hc.size_eq, hc.counted.available_eq]

theorem step [Inhabited T] (hc : w.Consistent curr head) {action : Action}
    (hGuard : w.CountsItems action) (hStep : w.step action = some w') :
    ∃ curr' head', w'.Consistent curr' head' := by
  cases action with
  | getNewItem alloc =>
      obtain ⟨hAlloc, rfl⟩ := of_ite_eq_some hStep
      obtain ⟨curr', head', hServed, hCounted⟩ := getNewItem_spec hc.shape hAlloc
      refine ⟨curr', head', hc.receive hServed, ?_⟩
      rw [receive_r]
      exact hCounted hc.counted
  | popItem alloc => cases hGuard
  | recycleItem item =>
      obtain ⟨hItem, rfl⟩ := of_ite_eq_some hStep
      refine ⟨curr, item :: head, hc.recycleItem hItem, ?_, hc.counted.bounded⟩
      have hCount := hc.counted.available_eq
      rw [List.length_cons, ← Nat.add_assoc, UInt32.ofNat_add]
      simp only [available, MemoryRecycler.recycleItem, pushEntry] at hCount ⊢
      grind
  | reset =>
      obtain ⟨r', hReset, hAfter, hCounted⟩ := hc.reset
      simp only [World.step, hReset, Option.map_some] at hStep
      obtain rfl := Option.some.inj hStep
      refine ⟨[], curr.reverse ++ head, hAfter, ?_⟩
      simpa using hCounted _ hc.counted
  | clearStats =>
      obtain rfl := Option.some.inj hStep
      refine ⟨curr, head, hc.clearStats, ?_, hc.counted.bounded⟩
      have hCount := hc.counted.available_eq
      have hSame : w.r.m_NumItemsGet = w.r.m_NumItemsRecycled := hGuard
      simp only [available, MemoryRecycler.clearStats] at hCount ⊢
      grind

/-- An uncounted step leaves a figure that is not the number of the items. -/
theorem not_bookkept [Inhabited T] (hc : w.Consistent curr head) {action : Action}
    (hBad : ¬w.CountsItems action) (hStep : w.step action = some w') : ¬w'.Bookkept := by
  intro hBook
  have hFigure := hBook.counted
  cases action with
  | getNewItem alloc => exact absurd trivial hBad
  | recycleItem item => exact absurd trivial hBad
  | reset => exact absurd trivial hBad
  | popItem alloc =>
      obtain ⟨hAlloc, rfl⟩ := of_ite_eq_some hStep
      obtain ⟨head', hServed, hOff⟩ := popItem_spec hc.shape hAlloc
      rw [(hc.receive hServed).size_eq, receive_r, hOff hc.counted] at hFigure
      have hZero : (1 : UInt32) = 0 := by
        have hSame := Option.some.inj hFigure
        grind
      cases hZero
  | clearStats =>
      obtain rfl := Option.some.inj hStep
      rw [hc.clearStats.size_eq, ← hc.counted.available_eq] at hFigure
      apply hBad
      have hSame := Option.some.inj hFigure
      simp only [available, MemoryRecycler.clearStats] at hSame
      simp only [CountsItems]
      grind

end Consistent
end World

theorem preallocate_spec [Inhabited T] {items : List Nat} (hs : r.Shape [] head [])
    (hBuilt : r.preallocate items = some r') :
    r'.Shape [] (items.reverse ++ head) [] ∧
      r'.m_NewedItems = r.m_NewedItems + UInt32.ofNat items.length ∧
      r'.m_maxItems = r.m_maxItems := by
  induction items generalizing r head with
  | nil =>
      obtain rfl := Option.some.inj hBuilt
      exact ⟨hs, by simp, rfl⟩
  | cons p rest ih =>
      simp only [preallocate] at hBuilt
      split_ifs at hBuilt with hAlloc
      have hNew := hs.create hAlloc.1 hAlloc.2
      have hCounter : ({ r with
          heap := r.heap.create p default
          m_NewedItems := r.m_NewedItems + 1
          m_NumItemsRecycled := r.m_NumItemsRecycled + 1 } : MemoryRecycler T).Shape [] head [p] :=
        ⟨hNew.currCells, hNew.headCells, hNew.owns⟩
      obtain ⟨hShape, hNewed, hMax⟩ := ih hCounter.pushEntry hBuilt
      refine ⟨?_, ?_, hMax⟩
      · rw [List.reverse_cons, List.append_assoc, List.singleton_append]
        exact hShape
      · rw [hNewed, List.length_cons, UInt32.ofNat_add]
        simp only [pushEntry]
        grind

theorem empty_shape [Inhabited T] (maxmemsize : Nat) :
    (empty maxmemsize : MemoryRecycler T).Shape [] [] [] := ⟨rfl, rfl, NodeHeap.initial_owns⟩

namespace World

/-- The recycler as it is constructed. -/
theorem construct_placed [Inhabited T] {maxmemsize : Nat} {items : List Nat}
    (hBuilt : construct maxmemsize items = some r) :
    Placed ⟨r, [], items⟩ [] items.reverse ∧ r.available = UInt32.ofNat items.length ∧
      (r.m_NewedItems ≤ r.m_maxItems ↔ items.length % 2 ^ 32 ≤ maxmemsize % 2 ^ 32) := by
  simp only [construct, Option.map_eq_some_iff] at hBuilt
  obtain ⟨r', hLoop, rfl⟩ := hBuilt
  obtain ⟨hShape, hNewed, hMax⟩ := preallocate_spec (empty_shape maxmemsize) hLoop
  rw [List.append_nil] at hShape
  simp only [empty, UInt32.zero_add] at hNewed hMax
  refine ⟨⟨⟨hShape.currCells, hShape.headCells, hShape.owns⟩, ?_⟩, ?_, ?_⟩
  · simp
  · simp only [available, hNewed]
    grind
  · simp only [hNewed, hMax, UInt32.le_iff_toNat_le, UInt32.toNat_ofNat']

/-- No item is lost in any run. -/
theorem always_conserved [Inhabited T] (maxmemsize : Nat) (items : List Nat)
    (hBuilt : construct maxmemsize items = some r) (actions : List Action) :
    Always step Conserved (⟨r, [], items⟩ : World T) actions := by
  have hAlways : Always step (fun w : World T => ∃ curr head, w.Placed curr head)
      ⟨r, [], items⟩ actions :=
    always_of_invariant (fun _ _ _ ⟨_, _, hp⟩ hStep => hp.step hStep) actions
      ⟨[], items.reverse, (construct_placed hBuilt).1⟩
  exact hAlways.mono fun _ ⟨_, _, hp⟩ => hp.conserved

/-- The books are right in every run if and only if the recycler may hold the
items it starts with and every step counts the items. -/
theorem bookkept_iff_countsItems [Inhabited T] (maxmemsize : Nat) (items : List Nat)
    (hBuilt : construct maxmemsize items = some r) (actions : List Action)
    (hRun : (run step (⟨r, [], items⟩ : World T) actions).isSome) :
    Always step Bookkept (⟨r, [], items⟩ : World T) actions ↔
      items.length % 2 ^ 32 ≤ maxmemsize % 2 ^ 32 ∧
        Guarded step CountsItems (⟨r, [], items⟩ : World T) actions := by
  obtain ⟨hPlaced, hFigure, hLimit⟩ := construct_placed hBuilt
  obtain ⟨finish, hFinish⟩ := Option.isSome_iff_exists.mp hRun
  have hStart : r.m_NewedItems ≤ r.m_maxItems →
      ∃ curr head, Consistent (⟨r, [], items⟩ : World T) curr head := by
    intro hBounded
    refine ⟨[], items.reverse, hPlaced, ?_, hBounded⟩
    simpa using hFigure
  have hExact := fun hBounded : r.m_NewedItems ≤ r.m_maxItems =>
    always_iff_guarded (fun w : World T => ∃ curr head, w.Consistent curr head)
      (fun _ _ _ ⟨_, _, hc⟩ hGuard hStep => hc.step hGuard hStep)
      (fun _ ⟨_, _, hc⟩ => hc.bookkept)
      (fun _ _ _ ⟨_, _, hc⟩ hBad hStep => hc.not_bookkept hBad hStep) (hStart hBounded) hFinish
  constructor
  · intro hAlways
    have hBounded := hAlways.start.bounded
    exact ⟨hLimit.mp hBounded, (hExact hBounded).mp hAlways⟩
  · rintro ⟨hInit, hGuard⟩
    exact (hExact (hLimit.mpr hInit)).mpr hGuard

/-- A recycler for four items that starts with two. -/
def small : MemoryRecycler Nat := (construct 4 [1, 2]).get rfl

theorem bookkept_iff_countsItems_small :
    Always step Bookkept ⟨small, [], [1, 2]⟩
        [.getNewItem none, .getNewItem none, .getNewItem (some 3), .recycleItem 2, .reset] ↔
      [1, 2].length % 2 ^ 32 ≤ 4 % 2 ^ 32 ∧
        Guarded step CountsItems ⟨small, [], [1, 2]⟩
          [.getNewItem none, .getNewItem none, .getNewItem (some 3), .recycleItem 2, .reset] :=
  bookkept_iff_countsItems 4 [1, 2] (Option.some_get _).symm _ rfl

/-- A recycler for one item hands out two, and then reports one as available
while it has none. With room for more, clearing the statistics while an item is
out does the second thing too. -/
theorem books_are_wrong :
    (∃ r w, construct 1 [] = some (r : MemoryRecycler Nat) ∧
      run step ⟨r, [], []⟩ [.getNewItem (some 1), .popItem (some 2)] = some w ∧
      w.hands = [2, 1] ∧ ¬w.r.m_NewedItems ≤ w.r.m_maxItems ∧ w.r.size 2 = some 0 ∧
      w.r.available = 1 ∧ ¬w.Bookkept) ∧
    (∃ r w, construct 4 [] = some (r : MemoryRecycler Nat) ∧
      run step ⟨r, [], []⟩ [.getNewItem (some 1), .clearStats] = some w ∧
      w.hands = [1] ∧ w.r.size 1 = some 0 ∧ w.r.available = 1 ∧ ¬w.Bookkept) := by
  have hPopped : ∃ r w, construct 1 [] = some (r : MemoryRecycler Nat) ∧
      run step ⟨r, [], []⟩ [.getNewItem (some 1), .popItem (some 2)] = some w ∧
      w.hands = [2, 1] ∧ w.r.m_NewedItems = 2 ∧ w.r.m_maxItems = 1 ∧ w.r.size 2 = some 0 ∧
      w.r.available = 1 := ⟨_, _, rfl, rfl, rfl, rfl, rfl, rfl, rfl⟩
  have hCleared : ∃ r w, construct 4 [] = some (r : MemoryRecycler Nat) ∧
      run step ⟨r, [], []⟩ [.getNewItem (some 1), .clearStats] = some w ∧
      w.hands = [1] ∧ w.created.length = 1 ∧ w.r.size 1 = some 0 ∧ w.r.available = 1 :=
    ⟨_, _, rfl, rfl, rfl, rfl, rfl, rfl⟩
  constructor
  · obtain ⟨r, w, hBuilt, hRun, hHands, hNewed, hMax, hSize, hFigure⟩ := hPopped
    have hOver : ¬w.r.m_NewedItems ≤ w.r.m_maxItems := by
      rw [hNewed, hMax]
      decide
    exact ⟨r, w, hBuilt, hRun, hHands, hOver, hSize, hFigure, fun hBook => hOver hBook.bounded⟩
  · obtain ⟨r, w, hBuilt, hRun, hHands, hCreated, hSize, hFigure⟩ := hCleared
    refine ⟨r, w, hBuilt, hRun, hHands, hSize, hFigure, fun hBook => ?_⟩
    have hEqual := hBook.counted
    rw [hCreated, hSize, hFigure] at hEqual
    cases hEqual

end World
end MemoryRecycler
end CppPerf.Queue
