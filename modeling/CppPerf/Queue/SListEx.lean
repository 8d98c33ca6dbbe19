import CppPerf.Semantics.Run
import Mathlib.Algebra.Ring.Nat

/-! The hand-over list of `SlistEx.h` with one thread that calls `PushItem` and
one that calls `GetItems`. The `Interlocked` calls are atomic; `unsigned long`
has 32 bits. The two overloads of `GetItems` differ in what they log only, and
both start with an empty list. -/
namespace CppPerf.Queue

structure SListEx (Item : Type*) where
  m_head : List Item := []
  m_NumItemsLife : UInt32 := 0
  m_NumItemsOut : UInt32 := 0
  m_PeakItems : UInt32 := 0

namespace SListEx

variable {Item : Type*}

/-- `PushItem` counts the item before it pushes it. -/
inductive Producer (Item : Type*) where
  | idle
  | counted (item : Item)

/-- Where `GetItems` stands: before the test of the counters, before the flush,
before the rest of the flushed entries is appended to `_list`, before the items
are counted out, at the end. `due` are the items whose pushes had completed
when it was called and which had not been handed out. -/
inductive Consumer (Item : Type*) where
  | idle
  | called (due : List Item)
  | flushing (due : List Item)
  | walking (due left list : List Item)
  | adding (due list : List Item)
  | returned (due list : List Item)

/-- `pushed` are the items of the completed calls of `PushItem`, and `handed`
those that `GetItems` has handed out, each of its lists read from the back. -/
structure System (Item : Type*) where
  q : SListEx Item
  producer : Producer Item
  consumer : Consumer Item
  pushed : List Item
  handed : List Item

inductive Action (Item : Type*) where
  /-- A call of `PushItem`, with the null pointer for `none`. -/
  | pushItem (item : Option Item)
  /-- The next step of the call of `PushItem`. -/
  | produce
  /-- A call of `GetItems`. -/
  | getItems
  /-- The next step of the call of `GetItems`. -/
  | consume

namespace System

def initial : System Item := ⟨{}, .idle, .idle, [], []⟩

def consume (s : System Item) : Option (System Item) :=
  match s.consumer with
  | .idle => none
  | .called due =>
      if s.q.m_NumItemsLife ≤ s.q.m_NumItemsOut then some { s with consumer := .returned due [] }
      else some { s with consumer := .flushing due }
  | .flushing due =>
      some { s with q := { s.q with m_head := [] }, consumer := .walking due s.q.m_head [] }
  | .walking due (item :: left) list =>
      some { s with consumer := .walking due left (list ++ [item]) }
  | .walking due [] list =>
      let m_NumItems := s.q.m_NumItemsLife - s.q.m_NumItemsOut
      some { s with
        q := { s.q with
          m_PeakItems := if s.q.m_PeakItems < m_NumItems then m_NumItems else s.q.m_PeakItems }
        consumer := .adding due list }
  | .adding due list =>
      some { s with
        q := { s.q with m_NumItemsOut := s.q.m_NumItemsOut + UInt32.ofNat list.length }
        consumer := .returned due list
        handed := s.handed ++ list.reverse }
  | .returned _ _ => some { s with consumer := .idle }

def step (s : System Item) : Action Item → Option (System Item)
  | .pushItem item =>
      match s.producer, item with
      | .idle, none => some s
      | .idle, some item =>
          some { s with
            q := { s.q with m_NumItemsLife := s.q.m_NumItemsLife + 1 }
            producer := .counted item }
      | .counted _, _ => none
  | .produce =>
      match s.producer with
      | .idle => none
      | .counted item =>
          some { s with
            q := { s.q with m_head := item :: s.q.m_head }
            producer := .idle
            pushed := s.pushed ++ [item] }
  | .getItems =>
      match s.consumer with
      | .idle => some { s with consumer := .called (s.pushed.drop s.handed.length) }
      | _ => none
  | .consume => s.consume

end System
end SListEx
end CppPerf.Queue

/-! Items are handed out once each and in order in every run. A call of
`GetItems` hands out what is due as long as its comparison of the two counters
is not misled by one of them having wrapped around. -/
namespace CppPerf.Queue.SListEx

open Transition

variable {Item : Type*}

/-- The item that is counted but not pushed yet. -/
def Producer.items : Producer Item → List Item
  | .idle => []
  | .counted item => [item]

/-- The items in the hands of `GetItems`, in the order of their pushes. -/
def Consumer.inHand : Consumer Item → List Item
  | .idle | .called _ | .flushing _ | .returned _ _ => []
  | .walking _ left list => (list ++ left).reverse
  | .adding _ list => list.reverse

namespace System

/-- The items come out once each in the order of the pushes, and a call of
`GetItems` returns all that was due when it was called. -/
structure HandsOver (s : System Item) : Prop where
  inOrder : s.handed <+: s.pushed
  live : ∀ due list, s.consumer = .returned due list → due <+: list.reverse

/-- The number of items that were counted in. -/
def begun (s : System Item) : Nat := s.pushed.length + s.producer.items.length

/-- When the counters are compared while an item is due, more items have been
counted in than handed out, also after both numbers are reduced to 32 bits. -/
def CountersAgree (s : System Item) : Action Item → Prop
  | .consume => ∀ due, s.consumer = .called due → due ≠ [] →
      s.handed.length % 2 ^ 32 < s.begun % 2 ^ 32
  | _ => True

/-- The due items are in the list, or in the hands of `GetItems`. -/
def Pending (s : System Item) : Prop :=
  match s.consumer with
  | .idle => True
  | .called due => due <+: s.q.m_head.reverse
  | .flushing due => due <+: s.q.m_head.reverse
  | .walking due left list => due <+: (list ++ left).reverse
  | .adding due list => due <+: list.reverse
  | .returned due list => due <+: list.reverse

structure Consistent (s : System Item) : Prop where
  pushed_eq : s.pushed = s.handed ++ s.consumer.inHand ++ s.q.m_head.reverse
  life_eq : s.q.m_NumItemsLife.toNat = s.begun % 2 ^ 32
  out_eq : s.q.m_NumItemsOut.toNat = s.handed.length % 2 ^ 32
  pending : s.Pending

variable {s t : System Item}

namespace Consistent

theorem handsOver (hc : s.Consistent) : s.HandsOver where
  inOrder := by
    rw [hc.pushed_eq, List.append_assoc]
    exact List.prefix_append _ _
  live := by
    intro due list hPhase
    have hPending := hc.pending
    rwa [Pending, hPhase] at hPending

/-- The test of the counters compares the two histories. -/
theorem life_le_out_iff (hc : s.Consistent) :
    s.q.m_NumItemsLife ≤ s.q.m_NumItemsOut ↔ ¬s.handed.length % 2 ^ 32 < s.begun % 2 ^ 32 := by
  rw [UInt32.le_iff_toNat_le, hc.life_eq, hc.out_eq, Nat.not_lt]

/-- A push completes. What is due stays in front of what is newer. -/
theorem produce (hc : s.Consistent) {item : Item} (hPhase : s.producer = .counted item) :
    ({ s with
        q := { s.q with m_head := item :: s.q.m_head }
        producer := .idle
        pushed := s.pushed ++ [item] } : System Item).Consistent := by
  refine ⟨?_, ?_, hc.out_eq, ?_⟩
  · simp only [List.reverse_cons, ← List.append_assoc]
    rw [← hc.pushed_eq]
  · have hLife := hc.life_eq
    rw [begun, hPhase] at hLife
    simpa [begun, Producer.items] using hLife
  · have hPending := hc.pending
    unfold Pending at hPending ⊢
    cases hConsumer : s.consumer with
    | idle => trivial
    | called due | flushing due =>
        rw [hConsumer] at hPending
        simp only [List.reverse_cons]
        exact hPending.trans (List.prefix_append _ _)
    | walking due left list | adding due list | returned due list =>
        rw [hConsumer] at hPending
        exact hPending

theorem pushItem (hc : s.Consistent) (hPhase : s.producer = .idle) (item : Item) :
    ({ s with
        q := { s.q with m_NumItemsLife := s.q.m_NumItemsLife + 1 }
        producer := .counted item } : System Item).Consistent := by
  refine ⟨hc.pushed_eq, ?_, hc.out_eq, hc.pending⟩
  have hLife := hc.life_eq
  rw [begun, hPhase, Producer.items, List.length_nil] at hLife
  simp only [begun, Producer.items, List.length_singleton, UInt32.toNat_add, UInt32.reduceToNat]
  omega

/-- The items that are handed out are counted out. -/
theorem add (hc : s.Consistent) {due list : List Item} (hPhase : s.consumer = .adding due list) :
    ({ s with
        q := { s.q with m_NumItemsOut := s.q.m_NumItemsOut + UInt32.ofNat list.length }
        consumer := .returned due list
        handed := s.handed ++ list.reverse } : System Item).Consistent := by
  have hPushed := hc.pushed_eq
  have hPending := hc.pending
  rw [hPhase] at hPushed
  rw [Pending, hPhase] at hPending
  refine ⟨?_, hc.life_eq, ?_, hPending⟩
  · simpa only [Consumer.inHand, List.append_nil] using hPushed
  · have hOut := hc.out_eq
    simp only [UInt32.toNat_add, UInt32.toNat_ofNat', List.length_append, List.length_reverse]
    omega

theorem consume (hc : s.Consistent) (hGuard : s.CountersAgree .consume)
    (hStep : s.consume = some t) : t.Consistent := by
  have hPushed := hc.pushed_eq
  have hPending := hc.pending
  unfold System.consume at hStep
  unfold Pending at hPending
  cases hPhase : s.consumer with
  | idle =>
      rw [hPhase] at hStep
      cases hStep
  | called due =>
      rw [hPhase] at hStep hPushed hPending
      simp only at hStep
      split_ifs at hStep with hTest
      · obtain rfl := Option.some.inj hStep
        -- The guard leaves only the case that nothing is due.
        have hNone : due = [] := by
          by_contra hDue
          exact hc.life_le_out_iff.mp hTest (hGuard due hPhase hDue)
        exact ⟨hPushed, hc.life_eq, hc.out_eq, by rw [hNone]; exact List.nil_prefix⟩
      · obtain rfl := Option.some.inj hStep
        exact ⟨hPushed, hc.life_eq, hc.out_eq, hPending⟩
  | flushing due =>
      rw [hPhase] at hStep hPushed hPending
      obtain rfl := Option.some.inj hStep
      refine ⟨?_, hc.life_eq, hc.out_eq, hPending⟩
      simpa [Consumer.inHand] using hPushed
  | walking due left list =>
      rw [hPhase] at hStep hPushed hPending
      cases left with
      | nil =>
          obtain rfl := Option.some.inj hStep
          simp only [Consumer.inHand, List.append_nil] at hPushed hPending
          exact ⟨hPushed, hc.life_eq, hc.out_eq, hPending⟩
      | cons item left =>
          obtain rfl := Option.some.inj hStep
          refine ⟨?_, hc.life_eq, hc.out_eq, ?_⟩
          · simpa [Consumer.inHand] using hPushed
          · simpa [Pending] using hPending
  | adding due list =>
      rw [hPhase] at hStep
      obtain rfl := Option.some.inj hStep
      exact hc.add hPhase
  | returned due list =>
      rw [hPhase] at hStep hPushed
      obtain rfl := Option.some.inj hStep
      exact ⟨hPushed, hc.life_eq, hc.out_eq, trivial⟩

theorem getItems (hc : s.Consistent) (hPhase : s.consumer = .idle) :
    ({ s with consumer := .called (s.pushed.drop s.handed.length) } : System Item).Consistent := by
  have hPushed := hc.pushed_eq
  rw [hPhase] at hPushed
  simp only [Consumer.inHand, List.append_nil] at hPushed
  refine ⟨?_, hc.life_eq, hc.out_eq, ?_⟩
  · simpa only [Consumer.inHand, List.append_nil] using hPushed
  · have hDue : s.pushed.drop s.handed.length = s.q.m_head.reverse := by
      rw [hPushed, List.drop_left' rfl]
    exact ⟨[], by rw [List.append_nil, hDue]⟩

theorem step (hc : s.Consistent) {action : Action Item} (hGuard : s.CountersAgree action)
    (hStep : s.step action = some t) : t.Consistent := by
  cases action with
  | consume => exact hc.consume hGuard hStep
  | pushItem item =>
      simp only [System.step] at hStep
      cases hPhase : s.producer with
      | counted other =>
          rw [hPhase] at hStep
          cases hStep
      | idle =>
          rw [hPhase] at hStep
          cases item with
          | none =>
              obtain rfl := Option.some.inj hStep
              exact hc
          | some item =>
              obtain rfl := Option.some.inj hStep
              exact hc.pushItem hPhase item
  | produce =>
      simp only [System.step] at hStep
      cases hPhase : s.producer with
      | idle =>
          rw [hPhase] at hStep
          cases hStep
      | counted item =>
          rw [hPhase] at hStep
          obtain rfl := Option.some.inj hStep
          exact hc.produce hPhase
  | getItems =>
      simp only [System.step] at hStep
      split at hStep
      · rename_i hPhase
        obtain rfl := Option.some.inj hStep
        exact hc.getItems hPhase
      · cases hStep

/-- A test that misses what is due returns an empty list. -/
theorem not_handsOver (hc : s.Consistent) {action : Action Item}
    (hBad : ¬s.CountersAgree action) (hStep : s.step action = some t) : ¬t.HandsOver := by
  cases action with
  | pushItem item => exact absurd trivial hBad
  | produce => exact absurd trivial hBad
  | getItems => exact absurd trivial hBad
  | consume =>
      simp only [CountersAgree, not_forall] at hBad
      obtain ⟨due, hPhase, hDue, hLess⟩ := hBad
      simp only [System.step, System.consume, hPhase, if_pos (hc.life_le_out_iff.mpr hLess),
        Option.some.injEq] at hStep
      subst t
      intro hOver
      exact hDue (List.prefix_nil.mp (hOver.live due [] rfl))

end Consistent

theorem initial_consistent : (initial : System Item).Consistent :=
  ⟨rfl, rfl, rfl, trivial⟩

/-- In every interleaving `GetItems` hands over what is due if and only if the
reduced counts agree with the histories whenever they are compared. -/
theorem handsOver_iff_countersAgree (actions : List (Action Item))
    (hRun : (run step (initial : System Item) actions).isSome) :
    Always step HandsOver (initial : System Item) actions ↔
      Guarded step CountersAgree (initial : System Item) actions := by
  obtain ⟨finish, hFinish⟩ := Option.isSome_iff_exists.mp hRun
  exact always_iff_guarded Consistent (fun _ _ _ hc hGuard hStep => hc.step hGuard hStep)
    (fun _ hc => hc.handsOver) (fun _ _ _ hc hBad hStep => hc.not_handsOver hBad hStep)
    initial_consistent hFinish

/-- One item is pushed and handed out. -/
def round : List (Action Nat) :=
  [.pushItem (some 0), .produce, .getItems, .consume, .consume, .consume, .consume, .consume,
    .consume]

def rounds : Nat → List (Action Nat)
  | 0 => []
  | n + 1 => rounds n ++ round

theorem handsOver_iff_countersAgree_round :
    Always step HandsOver (initial : System Nat) round ↔
      Guarded step CountersAgree (initial : System Nat) round :=
  handsOver_iff_countersAgree round (by decide)

/-- Between two rounds, after `n` of them. -/
def quiet (n : Nat) : System Nat where
  q := { m_NumItemsLife := UInt32.ofNat n, m_NumItemsOut := UInt32.ofNat n,
         m_PeakItems := if n = 0 then 0 else 1 }
  producer := .idle
  consumer := .idle
  pushed := List.replicate n 0
  handed := List.replicate n 0

theorem run_round {n : Nat} (hn : n + 1 < 2 ^ 32) :
    run step (quiet n) round = some (quiet (n + 1)) := by
  have hTest : ¬UInt32.ofNat n + 1 ≤ UInt32.ofNat n := by
    simp only [UInt32.le_iff_toNat_le, UInt32.toNat_add, UInt32.toNat_ofNat', UInt32.reduceToNat]
    omega
  have hDiff : UInt32.ofNat n + 1 - UInt32.ofNat n = 1 := by
    rw [UInt32.add_comm, UInt32.add_sub_cancel]
  have hPeak : (if (if n = 0 then 0 else 1 : UInt32) < 1 then 1 else if n = 0 then 0 else 1) =
      (1 : UInt32) := by
    split_ifs <;> first | rfl | contradiction
  have hNext : UInt32.ofNat (n + 1) = UInt32.ofNat n + 1 := UInt32.ofNat_add n 1
  simp only [round, quiet, run_cons, run_nil, step, consume, Option.bind_some, hTest, ↓reduceIte,
    hDiff, hPeak, hNext, List.nil_append, List.length_singleton, List.reverse_singleton,
    Nat.succ_ne_zero, List.replicate_succ']
  rfl

theorem run_rounds {n : Nat} (hn : n < 2 ^ 32) : run step initial (rounds n) = some (quiet n) := by
  induction n with
  | zero => rfl
  | succ n ih =>
      rw [rounds, run_append, ih (by omega), Option.bind_some]
      exact run_round hn

/-- The item pushed after `2 ^ 32 - 1` rounds is due when `GetItems` is called,
which returns nothing. -/
theorem not_handsOver_rounds {n : Nat} (hn : n + 1 = 2 ^ 32) :
    ¬Always step HandsOver (initial : System Nat)
      (rounds n ++ [.pushItem (some 0), .produce, .getItems, .consume]) := by
  intro hAlways
  have hTest : UInt32.ofNat n + 1 ≤ UInt32.ofNat n := by
    simp only [UInt32.le_iff_toNat_le, UInt32.toNat_add, UInt32.toNat_ofNat', UInt32.reduceToNat]
    omega
  have hRun : ∃ t, run step initial
      (rounds n ++ [.pushItem (some 0), .produce, .getItems, .consume]) = some t ∧
      t.consumer = .returned [0] [] := by
    rw [run_append, run_rounds (by omega), Option.bind_some]
    simp only [quiet, run_cons, run_nil, step, consume, Option.bind_some, hTest, ↓reduceIte]
    refine ⟨_, rfl, ?_⟩
    simp only [List.length_replicate, List.drop_left' List.length_replicate]
  obtain ⟨t, hFinish, hReturned⟩ := hRun
  have hDue := (hAlways.finish hFinish).live [0] [] hReturned
  simp at hDue

theorem counter_wrap_hides_item :
    ¬Always step HandsOver (initial : System Nat)
      (rounds (2 ^ 32 - 1) ++ [.pushItem (some 0), .produce, .getItems, .consume]) :=
  not_handsOver_rounds rfl

end System
end CppPerf.Queue.SListEx
