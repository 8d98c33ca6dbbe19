import CppPerf.Memory.NodeHeap
import CppPerf.Semantics.Run

/-! The list of `slist.h` with an atomic head. `compare_exchange_weak` may fail
without a reason, and every failed attempt stores the current head in its first
argument. That argument is a variable of the caller, while the new head was
computed before the first attempt. -/
namespace CppPerf.Queue

open Heap LinkedList

structure SlistR (T : Type*) where
  heap : NodeHeap T
  head : Nat

namespace SlistR

variable {T : Type*}

def construct [Inhabited T] : SlistR T := ⟨NodeHeap.initial, 0⟩

/-- One attempt. The second component is what the expected value is afterwards,
or `none` after a successful attempt. -/
def compareExchangeWeak (l : SlistR T) (expected desired : Nat) (spurious : Bool) :
    SlistR T × Option Nat :=
  if l.head = expected ∧ spurious = false then ({ l with head := desired }, none)
  else (l, some l.head)

/-- Where a call of `push_front` stands: before the load of `head`, before
`n->next` is written, before an attempt to make `n` the head. -/
inductive Push where
  | created (n : Nat)
  | loaded (n head : Nat)
  | linked (n : Nat)

def Push.node : Push → Nat
  | .created n => n
  | .loaded n _ => n
  | .linked n => n

/-- The next step of a call of `push_front`. The expected value is `n->next`
itself, so a failed attempt links the node to the current head. -/
def pushStep (l : SlistR T) (spurious : Bool) : Push → SlistR T × Option Push
  | .created n => (l, some (.loaded n l.head))
  | .loaded n head => ({ l with heap := l.heap.storeNext n head }, some (.linked n))
  | .linked n =>
      let l := { l with heap := l.heap.touch n }
      match l.compareExchangeWeak (l.heap.next n) n spurious with
      | (l, none) => (l, none)
      | (l, some expected) => ({ l with heap := l.heap.storeNext n expected }, some (.linked n))

/-- The nodes of `chain` are reachable from the head, and those of `cells` are
held by the threads. -/
structure Intact (l : SlistR T) (chain cells : List Nat) : Prop where
  list : IsList l.heap.next 0 l.head chain
  owns : l.heap.Owns (chain ++ cells)

theorem construct_intact [Inhabited T] : (construct : SlistR T).Intact [] [] where
  list := rfl
  owns := NodeHeap.initial_owns

variable {l : SlistR T} {chain cells other : List Nat} {n : Nat}

namespace Intact

theorem perm (h : l.Intact chain cells) (hPerm : cells.Perm other) : l.Intact chain other :=
  ⟨h.list, h.owns.perm (hPerm.append_left chain)⟩

theorem not_mem_chain (h : l.Intact chain (n :: cells)) : n ∉ chain := by
  intro hMem
  exact (List.nodup_append'.mp h.owns.nodup).2.2 hMem List.mem_cons_self

theorem not_mem_cells (h : l.Intact chain (n :: cells)) : n ∉ cells :=
  (List.nodup_cons.mp (List.nodup_append'.mp h.owns.nodup).2.1).1

theorem touch_eq (h : l.Intact chain cells) (hn : n ∈ chain ++ cells) :
    l.heap.touch n = l.heap := h.owns.touch_eq hn

theorem create (h : l.Intact chain cells) (hn : l.heap.allocated n = false) (hNull : n ≠ 0)
    (t : T) : ({ l with heap := l.heap.create n t } : SlistR T).Intact chain (n :: cells) where
  list := by
    have hNew := h.owns.not_mem hn
    exact NodeHeap.isList_create h.list fun hMem => hNew (List.mem_append_left _ hMem)
  owns := (h.owns.create hn hNull t).perm List.perm_middle.symm

/-- A store to a node that a thread holds. -/
theorem storeNext (h : l.Intact chain (n :: cells)) (q : Nat) :
    ({ l with heap := l.heap.storeNext n q } : SlistR T).Intact chain (n :: cells) where
  list := NodeHeap.isList_storeNext h.list h.not_mem_chain
  owns := h.owns.storeNext (by simp) q

/-- A node that leads to the head becomes the head. -/
theorem link (h : l.Intact chain (n :: cells)) (hNext : l.heap.next n = l.head) :
    ({ l with head := n } : SlistR T).Intact (n :: chain) cells where
  list := by
    refine ⟨rfl, h.owns.nonnull n (by simp), ?_⟩
    rw [hNext]
    exact h.list
  owns := h.owns.perm List.perm_middle

/-- The first node is taken out. -/
theorem unlink (h : l.Intact (n :: chain) cells) :
    ({ l with head := l.heap.next n } : SlistR T).Intact chain (n :: cells) where
  list := h.list.2.2
  owns := h.owns.perm List.perm_middle.symm

/-- All nodes are taken out. -/
theorem takeAll (h : l.Intact chain cells) :
    ({ l with head := 0 } : SlistR T).Intact [] (chain ++ cells) where
  list := rfl
  owns := h.owns

/-- A step of a push changes at most the link of its own node. A successful
attempt puts the node in front of the list, whatever the other threads did
since the head was loaded. -/
theorem pushStep {push : Push} {l' : SlistR T} {push' : Option Push} {spurious : Bool}
    (h : l.Intact chain (push.node :: cells))
    (hStep : l.pushStep spurious push = (l', push')) :
    l'.heap.data = l.heap.data ∧ (∀ p, p ≠ push.node → l'.heap.next p = l.heap.next p) ∧
      match push' with
      | some push' => push'.node = push.node ∧ l'.Intact chain (push.node :: cells)
      | none => l'.Intact (push.node :: chain) cells := by
  cases push with
  | created n =>
      cases hStep
      exact ⟨rfl, fun _ _ => rfl, rfl, h⟩
  | loaded n head =>
      cases hStep
      exact ⟨rfl, fun p hp => NodeHeap.next_storeNext_of_ne _ hp, rfl, h.storeNext head⟩
  | linked n =>
      simp only [SlistR.pushStep, h.touch_eq (show n ∈ chain ++ n :: cells by simp),
        compareExchangeWeak] at hStep
      split_ifs at hStep with hSame
      · cases hStep
        exact ⟨rfl, fun _ _ => rfl, h.link hSame.1.symm⟩
      · cases hStep
        exact ⟨rfl, fun p hp => NodeHeap.next_storeNext_of_ne _ hp, rfl, h.storeNext l.head⟩

end Intact
end SlistR
end CppPerf.Queue
