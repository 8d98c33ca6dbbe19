import CppPerf.Queue.SlistR

/-! Any number of threads that call `push_front` and one that calls
`pop_front`. A call of `pop_front` computes the new head once, before its first
attempt to exchange the head. -/
namespace CppPerf.Queue.SlistR.PopFront

open Heap LinkedList Transition

variable {T : Type*}

/-- Where the thread that pops stands: before `old->next` is read, before an
attempt, before `old->next` is cleared, or in the destructor of a node that
`pop_front` returned. -/
inductive Pop where
  | idle
  | loaded (old : Nat)
  | attempting (old desired : Nat)
  | unlinked (old : Nat)
  | deleting (stack : List Nat) (cur : Nat)

/-- The node that `pop_front` has taken out and not returned yet. -/
def Pop.held : Pop → List Nat
  | .unlinked old => [old]
  | .idle | .loaded _ | .attempting _ _ | .deleting _ _ => []

/-- `pushes` are the calls of `push_front` in progress, a thread having at most
one of them, and `owned` the nodes that the caller of `pop_front` holds.
`pushed` are the items of all calls so far and `returned` those returned. -/
structure World (T : Type*) where
  list : SlistR T
  pushes : List Push
  popping : Pop
  owned : List Nat
  pushed : List T
  returned : List T

inductive Action (T : Type*) where
  /-- A call of `push_front` and its new node. -/
  | pushFront (t : T) (n : Nat)
  /-- The next step of a call of `push_front`. -/
  | push (call : Nat) (spurious : Bool)
  /-- A call of `pop_front` and its load of `head`. -/
  | popFront
  /-- The next step of the thread that pops. -/
  | pop (spurious : Bool)
  /-- The caller gives up a node that it was returned. -/
  | drop (n : Nat)

namespace World

def initial [Inhabited T] : World T := ⟨construct, [], .idle, [], [], []⟩

def popStep (w : World T) (spurious : Bool) : Option (World T) :=
  match w.popping with
  | .idle => none
  | .loaded old =>
      some { w with
        list := { w.list with heap := w.list.heap.touch old }
        popping := .attempting old (w.list.heap.next old) }
  | .attempting old desired =>
      match w.list.compareExchangeWeak old desired spurious with
      | (l, none) => some { w with list := l, popping := .unlinked old }
      | (l, some expected) => some { w with list := l, popping := .attempting expected desired }
  | .unlinked old =>
      some { w with
        list := { w.list with heap := w.list.heap.storeNext old 0 }
        popping := .idle
        owned := old :: w.owned
        returned := w.returned ++ [w.list.heap.data old] }
  | .deleting stack cur =>
      match w.list.heap.destroyStep stack cur with
      | (heap, some (stack, cur)) =>
          some { w with list := { w.list with heap := heap }, popping := .deleting stack cur }
      | (heap, none) => some { w with list := { w.list with heap := heap }, popping := .idle }

def step (w : World T) : Action T → Option (World T)
  | .pushFront t n =>
      if w.list.heap.allocated n = false ∧ n ≠ 0 then
        some { w with
          list := { w.list with heap := w.list.heap.create n t }
          pushes := .created n :: w.pushes
          pushed := w.pushed ++ [t] }
      else none
  | .push call spurious =>
      match w.pushes[call]? with
      | none => none
      | some push =>
          match w.list.pushStep spurious push with
          | (l, some push) => some { w with list := l, pushes := w.pushes.set call push }
          | (l, none) => some { w with list := l, pushes := w.pushes.eraseIdx call }
  | .popFront =>
      match w.popping with
      | .idle =>
          if w.list.head = 0 then some w else some { w with popping := .loaded w.list.head }
      | _ => none
  | .pop spurious => w.popStep spurious
  | .drop n =>
      match w.popping with
      | .idle =>
          if n ∈ w.owned then
            some { w with popping := .deleting [] n, owned := w.owned.erase n }
          else none
      | _ => none

/-- The nodes that the calls in progress hold. -/
def held (w : World T) : List Nat := w.pushes.map Push.node ++ w.popping.held

/-- Every item is returned once, or reachable from the head, or held by a call
in progress, and no access was undefined. -/
structure NoneLost (w : World T) : Prop where
  defined : w.list.heap.undefined = false
  conserved : ∃ chain, IsList w.list.heap.next 0 w.list.head chain ∧
    (w.returned ++ chain.map w.list.heap.data ++ w.held.map w.list.heap.data).Perm w.pushed

/-- An attempt of `pop_front` that succeeds exchanges the head whose successor
was read. -/
def PopsLoadedHead (w : World T) : Action T → Prop
  | .pop false => ∀ old desired, w.popping = .attempting old desired → w.list.head = old →
      w.list.heap.next old = desired
  | _ => True

/-- What the thread that pops knows. The value computed for the head leads to
the end of the list, but from which node it was computed may be forgotten. -/
def PopKnows (w : World T) (chain doomed : List Nat) : Prop :=
  match w.popping with
  | .idle => doomed = []
  | .loaded old => doomed = [] ∧ old ∈ chain
  | .attempting _ desired => doomed = [] ∧ ∃ above below, chain = above ++ below ∧ above ≠ [] ∧
      IsList w.list.heap.next 0 desired below
  | .unlinked _ => doomed = []
  | .deleting stack cur => ∃ rest, doomed = stack ++ rest ∧ IsList w.list.heap.next 0 cur rest

/-- The invariant. `doomed` are the nodes that are being deleted. -/
structure Consistent (w : World T) (chain doomed : List Nat) : Prop where
  intact : w.list.Intact chain (w.held ++ (w.owned ++ doomed))
  conserved :
    (w.returned ++ chain.map w.list.heap.data ++ w.held.map w.list.heap.data).Perm w.pushed
  owned_next : ∀ p ∈ w.owned, w.list.heap.next p = 0
  pop : w.PopKnows chain doomed

variable {w w' : World T} {chain doomed : List Nat}

namespace Consistent

theorem noneLost (hc : w.Consistent chain doomed) : w.NoneLost :=
  ⟨hc.intact.owns.defined, chain, hc.intact.list, hc.conserved⟩

/-- A new node, or a step of a push, only changes the node of the push and
what is in front of the list. -/
theorem popKnows_of_push (hc : w.Consistent chain doomed) {n : Nat} (front : List Nat)
    (hPhase : w'.popping = w.popping) (hn : n ∉ chain ++ doomed)
    (hNext : ∀ p, p ≠ n → w'.list.heap.next p = w.list.heap.next p) :
    w'.PopKnows (front ++ chain) doomed := by
  have hKnows := hc.pop
  have hSame : ∀ start cells, IsList w.list.heap.next 0 start cells →
      (∀ p ∈ cells, p ∈ chain ++ doomed) → IsList w'.list.heap.next 0 start cells := by
    intro start cells hList hIn
    apply hList.congr
    intro p hp
    apply hNext
    rintro rfl
    exact hn (hIn p hp)
  unfold PopKnows at hKnows ⊢
  rw [hPhase]
  cases hPop : w.popping with
  | idle =>
      rw [hPop] at hKnows
      exact hKnows
  | loaded old =>
      rw [hPop] at hKnows
      exact ⟨hKnows.1, List.mem_append_right _ hKnows.2⟩
  | attempting old desired =>
      rw [hPop] at hKnows
      obtain ⟨hDoomed, above, below, hChain, hAbove, hList⟩ := hKnows
      refine ⟨hDoomed, front ++ above, below, by rw [hChain, List.append_assoc], ?_, ?_⟩
      · simp [hAbove]
      · apply hSame desired below hList
        intro p hp
        simp [hChain, hp]
  | unlinked old =>
      rw [hPop] at hKnows
      exact hKnows
  | deleting stack cur =>
      rw [hPop] at hKnows
      obtain ⟨rest, hDoomed, hList⟩ := hKnows
      refine ⟨rest, hDoomed, hSame cur rest hList ?_⟩
      intro p hp
      simp [hDoomed, hp]

theorem pushFront (hc : w.Consistent chain doomed) {n : Nat} (t : T)
    (hn : w.list.heap.allocated n = false) (hNull : n ≠ 0) :
    ({ w with
        list := { w.list with heap := w.list.heap.create n t }
        pushes := .created n :: w.pushes
        pushed := w.pushed ++ [t] } : World T).Consistent chain doomed := by
  classical
  have hNew := hc.intact.owns.not_mem hn
  simp only [List.mem_append, not_or] at hNew
  obtain ⟨hChain, hHeld, hOwned, hDoomed⟩ := hNew
  have hOther : ∀ p, p ≠ n → (w.list.heap.create n t).next p = w.list.heap.next p :=
    fun p hp => Function.update_of_ne hp ..
  refine ⟨hc.intact.create hn hNull t, ?_, ?_, ?_⟩
  · have hOld := hc.conserved
    have hData : (w.list.heap.create n t).data n = t := Function.update_self ..
    have hHeldNew : held { w with
        list := { w.list with heap := w.list.heap.create n t }
        pushes := .created n :: w.pushes
        pushed := w.pushed ++ [t] } = n :: w.held := rfl
    rw [hHeldNew]
    simp only [List.map_cons, hData, NodeHeap.map_data_create hChain,
      NodeHeap.map_data_create hHeld]
    rw [List.perm_iff_count] at hOld ⊢
    intro a
    have hCount := hOld a
    simp only [List.count_append, List.count_cons, List.count_nil] at hCount ⊢
    omega
  · intro p hp
    rw [hOther p (by rintro rfl; exact hOwned hp)]
    exact hc.owned_next p hp
  · exact hc.popKnows_of_push [] rfl (by simp [hChain, hDoomed]) hOther

private theorem split_at {calls : List Push} {call : Nat} {push : Push}
    (hGet : calls[call]? = some push) :
    ∃ front back, calls = front ++ push :: back ∧
      (∀ push', calls.set call push' = front ++ push' :: back) ∧
      calls.eraseIdx call = front ++ back := by
  obtain ⟨hCall, hPush⟩ := List.getElem?_eq_some_iff.mp hGet
  have hSplit : calls = calls.take call ++ push :: calls.drop (call + 1) := by
    rw [← hPush, List.getElem_cons_drop, List.take_append_drop]
  exact ⟨calls.take call, calls.drop (call + 1), hSplit,
    fun push' => List.set_eq_take_append_cons_drop.trans (if_pos hCall),
    List.eraseIdx_eq_take_drop_succ ..⟩

/-- A step of a call of `push_front` keeps the invariant. -/
theorem push (hc : w.Consistent chain doomed) {call : Nat} {push : Push} {spurious : Bool}
    {l : SlistR T} {push' : Option Push} (hGet : w.pushes[call]? = some push)
    (hStep : w.list.pushStep spurious push = (l, push')) :
    match push' with
    | some push' =>
        ({ w with list := l, pushes := w.pushes.set call push' } : World T).Consistent chain doomed
    | none => ({ w with list := l, pushes := w.pushes.eraseIdx call } : World T).Consistent
        (push.node :: chain) doomed := by
  classical
  obtain ⟨front, back, hSplit, hSet, hErase⟩ := split_at hGet
  have hPerm : (w.held ++ (w.owned ++ doomed)).Perm (push.node ::
      ((front ++ back).map Push.node ++ w.popping.held ++ (w.owned ++ doomed))) := by
    rw [List.perm_iff_count, held, hSplit]
    intro a
    simp only [List.map_append, List.map_cons, List.count_append, List.count_cons]
    omega
  have hMine := hc.intact.perm hPerm
  have hChain := hMine.not_mem_chain
  have hOthers := hMine.not_mem_cells
  simp only [List.mem_append, not_or] at hOthers
  obtain ⟨_, hOwned, hDoomed⟩ := hOthers
  obtain ⟨hData, hNext, hAfter⟩ := hMine.pushStep hStep
  have hOwnedNext : ∀ p ∈ w.owned, l.heap.next p = 0 := by
    intro p hp
    rw [hNext p (by rintro rfl; exact hOwned hp)]
    exact hc.owned_next p hp
  have hOld := hc.conserved
  cases push' with
  | some push' =>
      obtain ⟨hNode, hIntact⟩ := hAfter
      have hHeld : held { w with list := l, pushes := w.pushes.set call push' } = w.held := by
        simp only [held]
        rw [hSet, hSplit]
        simp only [List.map_append, List.map_cons, hNode]
      refine ⟨?_, ?_, hOwnedNext, ?_⟩
      · rw [hHeld]
        exact hIntact.perm hPerm.symm
      · rw [hHeld]
        simpa only [hData] using hOld
      · exact hc.popKnows_of_push [] rfl (by simp [hChain, hDoomed]) hNext
  | none =>
      refine ⟨?_, ?_, hOwnedNext, ?_⟩
      · simp only [held, hErase]
        exact hAfter
      · simp only [held, hErase, hData, List.map_cons]
        rw [held, hSplit] at hOld
        rw [List.perm_iff_count] at hOld ⊢
        intro a
        have hCount := hOld a
        simp only [List.map_append, List.map_cons, List.count_append, List.count_cons] at hCount ⊢
        omega
      · exact hc.popKnows_of_push [push.node] rfl (by simp [hChain, hDoomed]) hNext

/-- The successor of a reachable node is read. -/
theorem load (hc : w.Consistent chain doomed) {old : Nat} (hPhase : w.popping = .loaded old) :
    ({ w with
        list := { w.list with heap := w.list.heap.touch old }
        popping := .attempting old (w.list.heap.next old) } : World T).Consistent chain doomed := by
  have hKnows := hc.pop
  rw [PopKnows, hPhase] at hKnows
  obtain ⟨hDoomed, hOld⟩ := hKnows
  have hIntact := hc.intact
  have hConserved := hc.conserved
  rw [held, hPhase] at hIntact hConserved
  rw [hIntact.touch_eq (List.mem_append_left _ hOld)]
  refine ⟨hIntact, hConserved, hc.owned_next, hDoomed, ?_⟩
  obtain ⟨above, below, rfl⟩ := List.append_of_mem hOld
  refine ⟨above ++ [old], below, by simp, by simp, ?_⟩
  exact hc.intact.list.suffix

/-- An attempt that exchanges the head whose successor was read takes out one
node. -/
theorem exchange (hc : w.Consistent chain doomed) {old desired : Nat}
    (hPhase : w.popping = .attempting old desired) (hHead : w.list.head = old)
    (hDesired : w.list.heap.next old = desired) :
    ∃ below, ({ w with
        list := { w.list with head := desired }
        popping := .unlinked old } : World T).Consistent below doomed := by
  classical
  have hKnows := hc.pop
  rw [PopKnows, hPhase] at hKnows
  obtain ⟨rfl, above, below, hChain, hAbove, _⟩ := hKnows
  have hIntact := hc.intact
  have hConserved := hc.conserved
  rw [held, hPhase] at hIntact hConserved
  cases chain with
  | nil =>
      cases above with
      | nil => exact absurd rfl hAbove
      | cons first rest => cases hChain
  | cons first rest =>
      obtain rfl : old = first := hHead.symm.trans hIntact.list.1
      have hNew := hIntact.unlink
      rw [hDesired] at hNew
      refine ⟨rest, hNew.perm ?_, ?_, hc.owned_next, rfl⟩
      · rw [held, List.perm_iff_count]
        intro a
        simp only [Pop.held, List.count_append, List.count_cons, List.count_nil]
        omega
      · rw [held]
        rw [List.perm_iff_count] at hConserved ⊢
        intro a
        have hCount := hConserved a
        simp only [Pop.held, List.map_append, List.map_cons, List.map_nil, List.count_append,
          List.count_cons, List.count_nil] at hCount ⊢
        omega

/-- A failed attempt only forgets which node was loaded. -/
theorem retry (hc : w.Consistent chain doomed) {old desired expected : Nat}
    (hPhase : w.popping = .attempting old desired) :
    ({ w with popping := .attempting expected desired } : World T).Consistent chain doomed := by
  have hKnows := hc.pop
  have hIntact := hc.intact
  have hConserved := hc.conserved
  rw [PopKnows, hPhase] at hKnows
  rw [held, hPhase] at hIntact hConserved
  exact ⟨hIntact, hConserved, hc.owned_next, hKnows⟩

theorem give (hc : w.Consistent chain doomed) {old : Nat} (hPhase : w.popping = .unlinked old) :
    ({ w with
        list := { w.list with heap := w.list.heap.storeNext old 0 }
        popping := .idle
        owned := old :: w.owned
        returned := w.returned ++ [w.list.heap.data old] } : World T).Consistent chain doomed := by
  classical
  have hKnows := hc.pop
  have hIntact := hc.intact
  have hConserved := hc.conserved
  rw [PopKnows, hPhase] at hKnows
  rw [held, hPhase] at hIntact hConserved
  have hPerm : (w.pushes.map Push.node ++ (Pop.unlinked old).held ++ (w.owned ++ doomed)).Perm
      (old :: (w.pushes.map Push.node ++ (w.owned ++ doomed))) := by
    rw [List.perm_iff_count]
    intro a
    simp only [Pop.held, List.count_append, List.count_cons, List.count_nil]
    omega
  have hMine := hIntact.perm hPerm
  refine ⟨(hMine.storeNext 0).perm ?_, ?_, ?_, hKnows⟩
  · rw [held, List.perm_iff_count]
    intro a
    simp only [Pop.held, List.count_append, List.count_cons, List.count_nil]
    omega
  · rw [held]
    rw [List.perm_iff_count] at hConserved ⊢
    intro a
    have hCount := hConserved a
    simp only [Pop.held, NodeHeap.storeNext, NodeHeap.touch, List.map_append, List.map_cons,
      List.map_nil, List.count_append, List.count_cons, List.count_nil] at hCount ⊢
    omega
  · intro p hp
    rcases List.mem_cons.mp hp with rfl | hOld
    · exact NodeHeap.next_storeNext_self ..
    · have hne : p ≠ old := by
        rintro rfl
        apply hMine.not_mem_cells
        simp [hOld]
      simp only [NodeHeap.next_storeNext_of_ne _ hne]
      exact hc.owned_next p hOld

theorem destroy (hc : w.Consistent chain doomed) {stack : List Nat} {cur : Nat}
    (hPhase : w.popping = .deleting stack cur) {heap : NodeHeap T}
    {left : Option (List Nat × Nat)} (hStep : w.list.heap.destroyStep stack cur = (heap, left)) :
    ∃ doomed', ({ w with
        list := { w.list with heap := heap }
        popping := match left with
          | some (stack, cur) => .deleting stack cur
          | none => .idle } : World T).Consistent chain doomed' := by
  have hKnows := hc.pop
  have hIntact := hc.intact
  have hConserved := hc.conserved
  rw [PopKnows, hPhase] at hKnows
  rw [held, hPhase] at hIntact hConserved
  simp only [Pop.held, List.append_nil] at hIntact hConserved
  obtain ⟨rest, rfl, hList⟩ := hKnows
  have hPerm : (chain ++ (w.pushes.map Push.node ++ (w.owned ++ (stack ++ rest)))).Perm
      (stack ++ rest ++ (chain ++ (w.pushes.map Push.node ++ w.owned))) := by
    rw [List.perm_iff_count]
    intro a
    simp only [List.count_append]
    omega
  obtain ⟨hNext, hData, hAfter⟩ :=
    NodeHeap.destroyStep_spec (hIntact.owns.perm hPerm) hList hStep
  have hChain : IsList heap.next 0 w.list.head chain := by
    rw [hNext]
    exact hIntact.list
  have hOwned : ∀ p ∈ w.owned, heap.next p = 0 := by
    rw [hNext]
    exact hc.owned_next
  cases left with
  | none =>
      obtain ⟨_, hOwns⟩ := hAfter
      refine ⟨[], ⟨hChain, ?_⟩, ?_, hOwned, rfl⟩
      · simpa [held, Pop.held] using hOwns
      · simpa [held, Pop.held, hData] using hConserved
  | some left =>
      obtain ⟨stack', cur'⟩ := left
      obtain ⟨rest', hList', hOwns⟩ := hAfter
      refine ⟨stack' ++ rest', ⟨hChain, hOwns.perm ?_⟩, ?_, hOwned, rest', rfl, hList'⟩
      · rw [List.perm_iff_count]
        intro a
        simp only [held, Pop.held, List.count_append, List.count_nil]
        omega
      · simpa [held, Pop.held, hData] using hConserved

theorem popStep (hc : w.Consistent chain doomed) {spurious : Bool}
    (hGuard : w.PopsLoadedHead (.pop spurious)) (hStep : w.popStep spurious = some w') :
    ∃ chain' doomed', w'.Consistent chain' doomed' := by
  unfold World.popStep at hStep
  cases hPhase : w.popping with
  | idle =>
      rw [hPhase] at hStep
      cases hStep
  | loaded old =>
      rw [hPhase] at hStep
      obtain rfl := Option.some.inj hStep
      exact ⟨chain, doomed, hc.load hPhase⟩
  | attempting old desired =>
      rw [hPhase] at hStep
      simp only [compareExchangeWeak] at hStep
      by_cases hSame : w.list.head = old ∧ spurious = false
      · rw [if_pos hSame] at hStep
        obtain rfl := Option.some.inj hStep
        obtain ⟨hHead, rfl⟩ := hSame
        have hDesired := hGuard old desired hPhase hHead
        obtain ⟨below, hNew⟩ := hc.exchange hPhase hHead hDesired
        exact ⟨below, doomed, hNew⟩
      · rw [if_neg hSame] at hStep
        obtain rfl := Option.some.inj hStep
        exact ⟨chain, doomed, hc.retry hPhase⟩
  | unlinked old =>
      rw [hPhase] at hStep
      obtain rfl := Option.some.inj hStep
      exact ⟨chain, doomed, hc.give hPhase⟩
  | deleting stack cur =>
      rw [hPhase] at hStep
      rcases hDestroy : w.list.heap.destroyStep stack cur with ⟨heap, _ | ⟨stack', cur'⟩⟩
      all_goals
        obtain ⟨doomed', hNew⟩ := hc.destroy hPhase hDestroy
        simp only [hDestroy] at hStep
        obtain rfl := Option.some.inj hStep
        exact ⟨chain, doomed', hNew⟩

/-- A call of `pop_front` loads a node that is still reachable when it is
read: only this thread takes nodes out. -/
theorem popFront (hc : w.Consistent chain doomed) (hPhase : w.popping = .idle)
    (hHead : w.list.head ≠ 0) :
    ({ w with popping := .loaded w.list.head } : World T).Consistent chain doomed := by
  have hKnows := hc.pop
  have hIntact := hc.intact
  have hConserved := hc.conserved
  rw [PopKnows, hPhase] at hKnows
  rw [held, hPhase] at hIntact hConserved
  refine ⟨hIntact, hConserved, hc.owned_next, hKnows, ?_⟩
  cases chain with
  | nil => exact absurd hIntact.list hHead
  | cons first rest =>
      rw [hIntact.list.1]
      exact List.mem_cons_self

theorem drop (hc : w.Consistent chain doomed) (hPhase : w.popping = .idle) {n : Nat}
    (hn : n ∈ w.owned) :
    ({ w with popping := .deleting [] n, owned := w.owned.erase n } : World T).Consistent
      chain [n] := by
  have hKnows := hc.pop
  have hIntact := hc.intact
  have hConserved := hc.conserved
  rw [PopKnows, hPhase] at hKnows
  subst hKnows
  rw [held, hPhase] at hIntact hConserved
  refine ⟨hIntact.perm ?_, hConserved, ?_, [n], rfl, rfl, ?_, hc.owned_next n hn⟩
  · apply List.Perm.append_left
    rw [List.append_nil]
    exact (List.perm_cons_erase hn).trans (List.perm_append_singleton n _).symm
  · intro p hp
    exact hc.owned_next p (List.mem_of_mem_erase hp)
  · exact hIntact.owns.nonnull n (by simp [hn])

theorem step (hc : w.Consistent chain doomed) {action : Action T}
    (hGuard : w.PopsLoadedHead action) (hStep : w.step action = some w') :
    ∃ chain' doomed', w'.Consistent chain' doomed' := by
  cases action with
  | pop spurious => exact hc.popStep hGuard hStep
  | pushFront t n =>
      obtain ⟨hNew, rfl⟩ := of_ite_eq_some hStep
      exact ⟨chain, doomed, hc.pushFront t hNew.1 hNew.2⟩
  | push call spurious =>
      simp only [World.step] at hStep
      cases hGet : w.pushes[call]? with
      | none =>
          rw [hGet] at hStep
          cases hStep
      | some push =>
          rw [hGet] at hStep
          rcases hPush : w.list.pushStep spurious push with ⟨l, _ | push'⟩
          all_goals
            have hNew := hc.push hGet hPush
            simp only [hPush] at hStep
            obtain rfl := Option.some.inj hStep
            exact ⟨_, doomed, hNew⟩
  | popFront =>
      simp only [World.step] at hStep
      split at hStep
      · rename_i hPhase
        split_ifs at hStep with hHead
        · obtain rfl := Option.some.inj hStep
          exact ⟨chain, doomed, hc⟩
        · obtain rfl := Option.some.inj hStep
          exact ⟨chain, doomed, hc.popFront hPhase hHead⟩
      · cases hStep
  | drop n =>
      simp only [World.step] at hStep
      split at hStep
      · rename_i hPhase
        split_ifs at hStep with hMem
        obtain rfl := Option.some.inj hStep
        exact ⟨chain, [n], hc.drop hPhase hMem⟩
      · cases hStep

/-- An attempt that exchanges another head than the one whose successor was
read loses at least one item: fewer nodes are reachable from the stale value
than are left. -/
theorem not_noneLost (hc : w.Consistent chain doomed) {action : Action T}
    (hBad : ¬w.PopsLoadedHead action) (hStep : w.step action = some w') : ¬w'.NoneLost := by
  cases action with
  | pushFront t n => exact absurd trivial hBad
  | push call spurious => exact absurd trivial hBad
  | popFront => exact absurd trivial hBad
  | drop n => exact absurd trivial hBad
  | pop spurious =>
      cases spurious with
      | true => exact absurd trivial hBad
      | false =>
          simp only [PopsLoadedHead, not_forall] at hBad
          obtain ⟨old, desired, hPhase, hHead, hStale⟩ := hBad
          have hKnows := hc.pop
          have hConserved := hc.conserved
          rw [PopKnows, hPhase] at hKnows
          rw [held, hPhase] at hConserved
          obtain ⟨-, above, below, hChain, hAbove, hBelow⟩ := hKnows
          simp only [World.step, World.popStep, hPhase, compareExchangeWeak, hHead, and_self,
            ↓reduceIte, Option.some.injEq] at hStep
          subst w'
          rintro ⟨-, reached, hReached, hPerm⟩
          obtain rfl := hBelow.unique hReached
          have hBefore := hConserved.length_eq
          have hAfter := hPerm.length_eq
          simp only [held, Pop.held, List.length_append, List.length_map, List.length_cons,
            List.length_nil] at hBefore hAfter
          -- Only the head itself is above the nodes reachable from the stale value.
          have hOne : above.length = 1 := by
            have hLength := congrArg List.length hChain
            rw [List.length_append] at hLength
            omega
          obtain ⟨first, rfl⟩ := List.length_eq_one_iff.mp hOne
          subst hChain
          have hList := hc.intact.list
          obtain rfl : old = first := hHead.symm.trans hList.1
          exact hStale (hList.2.2.start_eq hBelow)

end Consistent

theorem initial_consistent [Inhabited T] : (initial : World T).Consistent [] [] where
  intact := construct_intact
  conserved := List.Perm.refl _
  owned_next _ hp := absurd hp List.not_mem_nil
  pop := rfl

/-- In every interleaving, each item is returned once or still there if and
only if no `pop_front` exchanges another head than the one whose successor it
read. -/
theorem noneLost_iff_popsLoadedHead [Inhabited T] (actions : List (Action T))
    (hRun : (run step (initial : World T) actions).isSome) :
    Always step NoneLost (initial : World T) actions ↔
      Guarded step PopsLoadedHead (initial : World T) actions := by
  obtain ⟨finish, hFinish⟩ := Option.isSome_iff_exists.mp hRun
  refine always_iff_guarded (fun w : World T => ∃ chain doomed, w.Consistent chain doomed) ?_ ?_ ?_
    ⟨[], [], initial_consistent⟩ hFinish
  · rintro w action w' ⟨chain, doomed, hc⟩ hGuard hStep
    exact hc.step hGuard hStep
  · rintro w ⟨chain, doomed, hc⟩
    exact hc.noneLost
  · rintro w action w' ⟨chain, doomed, hc⟩ hBad hStep
    exact hc.not_noneLost hBad hStep

/-- Two threads push and one pops, with no push between its load and its
attempt. -/
def quietSchedule : List (Action Nat) :=
  [.pushFront 10 1, .pushFront 20 2, .push 0 false, .push 1 false, .push 0 false, .push 1 false,
    .push 0 false, .push 0 false, .push 0 false, .popFront, .pop false, .pop false, .pop false]

theorem noneLost_iff_popsLoadedHead_quietSchedule :
    Always step NoneLost (initial : World Nat) quietSchedule ↔
      Guarded step PopsLoadedHead (initial : World Nat) quietSchedule :=
  noneLost_iff_popsLoadedHead quietSchedule (by decide)

/-- A push completes between the load of a pop and its first attempt, which
fails; the second one succeeds. -/
def lossySchedule : List (Action Nat) :=
  [.pushFront 10 1, .push 0 false, .push 0 false, .push 0 false, .popFront, .pop false,
    .pushFront 20 2, .push 0 false, .push 0 false, .push 0 false, .pop false, .pop false]

theorem pop_front_loses_item : ¬Always step NoneLost (initial : World Nat) lossySchedule := by
  intro hAlways
  have hFinish : ∃ w, run step (initial : World Nat) lossySchedule = some w ∧
      w.list.head = 0 ∧ w.held = [2] ∧ w.returned = [] ∧ w.pushed = [10, 20] :=
    ⟨_, rfl, rfl, rfl, rfl, rfl⟩
  obtain ⟨w, hRun, hHead, hHeld, hReturned, hPushed⟩ := hFinish
  obtain ⟨-, chain, hList, hPerm⟩ := hAlways.finish hRun
  have hEmpty : chain = [] := by
    rw [hHead] at hList
    exact hList.unique rfl
  have hLength := hPerm.length_eq
  rw [hEmpty, hHeld, hReturned, hPushed] at hLength
  simp at hLength

end World
end CppPerf.Queue.SlistR.PopFront
