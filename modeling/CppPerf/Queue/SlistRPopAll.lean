import CppPerf.Queue.SlistR

/-! One thread that calls `push_front` and one that calls `pop_all`, reverses
the nodes that it gets, reads them and deletes them, as `consumer3` does. The
recursion of `reverse` is taken step by step, so that the other thread may run
at any point of it. -/
namespace CppPerf.Queue.SlistR.PopAll

open Heap LinkedList Transition

variable {T : Type*}

/-- Where the consumer stands. In `reversing`, `stack` are the arguments of the
calls of `reverse` that wait for the one with argument `cur`. In `returning`,
the innermost call has returned `first` and `second`; in `cutting`, the outer
one has linked its node `head` behind `second` and is about to cut it off from
its old successor. -/
inductive Consumer where
  | idle
  | attempting (old : Nat)
  | reversing (stack : List Nat) (cur : Nat)
  | returning (stack : List Nat) (first second : Nat)
  | cutting (stack : List Nat) (head first : Nat)
  | reading (first node : Nat)
  | deleting (stack : List Nat) (cur : Nat)

/-- `pushed` are the items of the calls of `push_front` that have taken effect,
and `received` those that the consumer has read. -/
structure World (T : Type*) where
  list : SlistR T
  pushing : Option Push
  consumer : Consumer
  pushed : List T
  received : List T

inductive Action (T : Type*) where
  /-- A call of `push_front` and its new node. -/
  | pushFront (t : T) (n : Nat)
  /-- The next step of the call of `push_front`. -/
  | push (spurious : Bool)
  /-- A call of `pop_all` and its load of `head`. -/
  | popAll
  /-- The next step of the consumer. -/
  | consume (spurious : Bool)

namespace World

def initial [Inhabited T] : World T := ⟨construct, none, .idle, [], []⟩

def consume (w : World T) (spurious : Bool) : Option (World T) :=
  match w.consumer with
  | .idle => none
  | .attempting old =>
      match w.list.compareExchangeWeak old 0 spurious with
      | (l, none) => some { w with list := l, consumer := .reversing [] old }
      | (l, some expected) => some { w with list := l, consumer := .attempting expected }
  | .reversing stack cur =>
      if cur = 0 then some { w with consumer := .returning stack cur cur }
      else
        let heap := w.list.heap.touch cur
        let consumer :=
          if heap.next cur = 0 then .returning stack cur cur
          else .reversing (cur :: stack) (heap.next cur)
        some { w with list := { w.list with heap := heap }, consumer := consumer }
  | .returning [] first _ => some { w with consumer := .reading first first }
  | .returning (head :: stack) first second =>
      some { w with
        list := { w.list with heap := w.list.heap.storeNext second head }
        consumer := .cutting stack head first }
  | .cutting stack head first =>
      some { w with
        list := { w.list with heap := w.list.heap.storeNext head 0 }
        consumer := .returning stack first head }
  | .reading first node =>
      if node = 0 then some { w with consumer := .deleting [] first }
      else
        some { w with
          list := { w.list with heap := w.list.heap.touch node }
          consumer := .reading first (w.list.heap.next node)
          received := w.received ++ [w.list.heap.data node] }
  | .deleting stack cur =>
      match w.list.heap.destroyStep stack cur with
      | (heap, some (stack, cur)) =>
          some { w with list := { w.list with heap := heap }, consumer := .deleting stack cur }
      | (heap, none) => some { w with list := { w.list with heap := heap }, consumer := .idle }

def step (w : World T) : Action T → Option (World T)
  | .pushFront t n =>
      if w.pushing.isNone = true ∧ w.list.heap.allocated n = false ∧ n ≠ 0 then
        some { w with
          list := { w.list with heap := w.list.heap.create n t }
          pushing := some (.created n) }
      else none
  | .push spurious =>
      match w.pushing with
      | none => none
      | some push =>
          match w.list.pushStep spurious push with
          | (l, some push) => some { w with list := l, pushing := some push }
          | (l, none) =>
              some { w with
                list := l
                pushing := none
                pushed := w.pushed ++ [w.list.heap.data push.node] }
  | .popAll =>
      match w.consumer with
      | .idle =>
          if w.list.head = 0 then some { w with consumer := .reversing [] 0 }
          else some { w with consumer := .attempting w.list.head }
      | _ => none
  | .consume spurious => w.consume spurious

/-- The items were read in the order of the pushes, and between two rounds of
the consumer all others are in the list. No access was undefined. -/
structure InOrder (w : World T) : Prop where
  defined : w.list.heap.undefined = false
  received : w.received <+: w.pushed
  left : w.consumer = .idle → ∃ chain, IsList w.list.heap.next 0 w.list.head chain ∧
    w.pushed = w.received ++ (chain.map w.list.heap.data).reverse

/-- The node of the push in progress. -/
def held (w : World T) : List Nat := w.pushing.toList.map Push.node

/-- The consumer holds these nodes, and will read those of `order`, in this
order. While `reverse` is under way the nodes that were reached already form a
list in the new order, and `stack` are the others. -/
def Holds (heap : NodeHeap T) (cells order : List Nat) : Consumer → Prop
  | .idle => cells = [] ∧ order = []
  | .attempting _ => cells = [] ∧ order = []
  | .reversing stack cur => ∃ rest, IsList heap.next 0 cur rest ∧ cells = stack ++ rest ∧
      order = rest.reverse ++ stack ∧ (rest = [] → stack = [])
  | .returning stack first second => ∃ done, IsList heap.next 0 first done ∧
      cells = stack ++ done ∧ order = done ++ stack ∧
        (done = [] ∧ stack = [] ∨ ∃ front, done = front ++ [second])
  | .cutting stack head first => ∃ done,
      IsList (Function.update heap.next head 0) 0 first (done ++ [head]) ∧
        cells = head :: stack ++ done ∧ order = done ++ head :: stack
  | .reading first node => ∃ seen, IsList heap.next 0 first (seen ++ order) ∧
      IsList heap.next 0 node order ∧ cells = seen ++ order
  | .deleting stack cur => ∃ rest, IsList heap.next 0 cur rest ∧ cells = stack ++ rest ∧ order = []

/-- Only the links of the nodes that it holds matter to the consumer. -/
theorem Holds.congr {heap heap' : NodeHeap T} {cells order : List Nat} {c : Consumer}
    (h : Holds heap cells order c) (hSame : ∀ p ∈ cells, heap'.next p = heap.next p) :
    Holds heap' cells order c := by
  have hList : ∀ start list, IsList heap.next 0 start list → (∀ p ∈ list, p ∈ cells) →
      IsList heap'.next 0 start list :=
    fun start list hOld hIn => hOld.congr fun p hp => hSame p (hIn p hp)
  cases c with
  | idle => exact h
  | attempting old => exact h
  | reversing stack cur =>
      obtain ⟨rest, hOld, hCells, hOrder⟩ := h
      exact ⟨rest, hList cur rest hOld (by simp_all), hCells, hOrder⟩
  | returning stack first second =>
      obtain ⟨done, hOld, hCells, hOrder⟩ := h
      exact ⟨done, hList first done hOld (by simp_all), hCells, hOrder⟩
  | cutting stack head first =>
      obtain ⟨done, hOld, hCells, hOrder⟩ := h
      refine ⟨done, hOld.congr ?_, hCells, hOrder⟩
      intro p hp
      by_cases hHead : p = head
      · simp [hHead]
      · rw [Function.update_of_ne hHead, Function.update_of_ne hHead]
        apply hSame
        simp_all
  | reading first node =>
      obtain ⟨seen, hAll, hOld, hCells⟩ := h
      exact ⟨seen, hList first _ hAll (by simp_all), hList node _ hOld (by simp_all), hCells⟩
  | deleting stack cur =>
      obtain ⟨rest, hOld, hCells, hOrder⟩ := h
      exact ⟨rest, hList cur rest hOld (by simp_all), hCells, hOrder⟩

/-- The invariant. What was pushed is what was read, what the consumer has
taken, and what is in the list. -/
structure Consistent (w : World T) (chain cells order : List Nat) : Prop where
  intact : w.list.Intact chain (w.held ++ cells)
  pushed_eq : w.pushed =
    w.received ++ order.map w.list.heap.data ++ (chain.map w.list.heap.data).reverse
  consumer : Holds w.list.heap cells order w.consumer

variable {w w' : World T} {chain cells order : List Nat}

namespace Consistent

theorem inOrder (hc : w.Consistent chain cells order) : w.InOrder where
  defined := hc.intact.owns.defined
  received := by
    rw [hc.pushed_eq, List.append_assoc]
    exact List.prefix_append _ _
  left := by
    intro hIdle
    have hHolds := hc.consumer
    rw [hIdle] at hHolds
    obtain ⟨_, rfl⟩ := hHolds
    refine ⟨chain, hc.intact.list, ?_⟩
    simpa using hc.pushed_eq

theorem order_subset (hc : w.Consistent chain cells order) : ∀ p ∈ order, p ∈ cells := by
  have hHolds := hc.consumer
  cases hPhase : w.consumer with
  | idle | attempting old | reversing stack cur | returning stack first second
  | cutting stack head first | reading first node | deleting stack cur =>
      rw [hPhase] at hHolds
      simp only [Holds] at hHolds
      grind

theorem pushFront (hc : w.Consistent chain cells order) (hIdle : w.pushing = none) {n : Nat}
    (t : T) (hn : w.list.heap.allocated n = false) (hNull : n ≠ 0) :
    ({ w with
        list := { w.list with heap := w.list.heap.create n t }
        pushing := some (.created n) } : World T).Consistent chain cells order := by
  have hNew := hc.intact.owns.not_mem hn
  simp only [List.mem_append, not_or] at hNew
  obtain ⟨hChain, -, hCells⟩ := hNew
  have hOrder : n ∉ order := fun hMem => hCells (hc.order_subset n hMem)
  refine ⟨?_, ?_, ?_⟩
  · have hIntact := hc.intact.create hn hNull t
    rwa [held, hIdle] at hIntact
  · simp only [NodeHeap.map_data_create hOrder, NodeHeap.map_data_create hChain]
    exact hc.pushed_eq
  · apply hc.consumer.congr
    intro p hp
    apply Function.update_of_ne
    rintro rfl
    exact hCells hp

theorem push (hc : w.Consistent chain cells order) {push : Push} {spurious : Bool}
    {l : SlistR T} {push' : Option Push} (hPush : w.pushing = some push)
    (hStep : w.list.pushStep spurious push = (l, push')) :
    match push' with
    | some push' =>
        ({ w with list := l, pushing := some push' } : World T).Consistent chain cells order
    | none => ({ w with
        list := l
        pushing := none
        pushed := w.pushed ++ [w.list.heap.data push.node] } : World T).Consistent
          (push.node :: chain) cells order := by
  have hIntact := hc.intact
  rw [held, hPush] at hIntact
  have hOthers := hIntact.not_mem_cells
  obtain ⟨hData, hNext, hAfter⟩ := hIntact.pushStep hStep
  have hHolds : Holds l.heap cells order w.consumer := by
    apply hc.consumer.congr
    intro p hp
    apply hNext
    rintro rfl
    exact hOthers hp
  cases push' with
  | some push' =>
      obtain ⟨hNode, hNew⟩ := hAfter
      refine ⟨?_, ?_, hHolds⟩
      · simpa [held, hNode] using hNew
      · simpa only [hData] using hc.pushed_eq
  | none =>
      refine ⟨hAfter, ?_, hHolds⟩
      simp only [hData, List.map_cons, List.reverse_cons, ← List.append_assoc]
      rw [← hc.pushed_eq]

/-- All nodes of the list change hands at once. -/
theorem takeAll (hc : w.Consistent chain cells order) {old : Nat}
    (hPhase : w.consumer = .attempting old) (hHead : w.list.head = old) :
    ({ w with
        list := { w.list with head := 0 }
        consumer := .reversing [] old } : World T).Consistent [] chain chain.reverse := by
  have hHolds := hc.consumer
  rw [hPhase] at hHolds
  obtain ⟨rfl, rfl⟩ := hHolds
  refine ⟨?_, ?_, chain, ?_, rfl, by simp, fun _ => rfl⟩
  · apply hc.intact.takeAll.perm
    rw [List.append_nil]
    exact List.perm_append_comm
  · simpa using hc.pushed_eq
  · rw [← hHead]
    exact hc.intact.list

/-- A call of `reverse` with a null pointer, or with the last node. -/
theorem turn (hc : w.Consistent chain cells order) {stack : List Nat} {cur : Nat}
    (hPhase : w.consumer = .reversing stack cur)
    (hLast : cur = 0 ∨ w.list.heap.next cur = 0) :
    ({ w with consumer := .returning stack cur cur } : World T).Consistent chain cells order := by
  have hHolds := hc.consumer
  rw [hPhase] at hHolds
  obtain ⟨rest, hList, rfl, rfl, hStack⟩ := hHolds
  cases rest with
  | nil =>
      refine ⟨hc.intact, hc.pushed_eq, [], hList, rfl, rfl, Or.inl ⟨rfl, hStack rfl⟩⟩
  | cons node rest =>
      obtain ⟨rfl, hNull, hRest⟩ := hList
      obtain hEnd : w.list.heap.next cur = 0 := hLast.resolve_left hNull
      obtain rfl : rest = [] := by
        rw [hEnd] at hRest
        exact hRest.unique rfl
      exact ⟨hc.intact, hc.pushed_eq, [cur], ⟨rfl, hNull, hEnd⟩, rfl, rfl, Or.inr ⟨[], rfl⟩⟩

/-- A call of `reverse` with a node that has a successor calls itself. -/
theorem descend (hc : w.Consistent chain cells order) {stack : List Nat} {cur : Nat}
    (hPhase : w.consumer = .reversing stack cur) (hNull : cur ≠ 0)
    (hNext : w.list.heap.next cur ≠ 0) :
    ∃ cells', ({ w with consumer := .reversing (cur :: stack) (w.list.heap.next cur) } :
      World T).Consistent chain cells' order := by
  have hHolds := hc.consumer
  rw [hPhase] at hHolds
  obtain ⟨rest, hList, rfl, rfl, hStack⟩ := hHolds
  cases rest with
  | nil => exact absurd hList hNull
  | cons node rest =>
      obtain ⟨rfl, _, hRest⟩ := hList
      refine ⟨cur :: stack ++ rest, hc.intact.perm ?_, hc.pushed_eq, rest, hRest, rfl, by simp, ?_⟩
      · exact List.perm_middle.append_left _
      · rintro rfl
        exact absurd hRest hNext

/-- The node of the outer call is linked behind the last one. -/
theorem link (hc : w.Consistent chain cells order) {stack : List Nat} {head first second : Nat}
    (hPhase : w.consumer = .returning (head :: stack) first second) :
    ({ w with
        list := { w.list with heap := w.list.heap.storeNext second head }
        consumer := .cutting stack head first } : World T).Consistent chain cells order := by
  have hHolds := hc.consumer
  have hIntact := hc.intact
  rw [hPhase] at hHolds
  obtain ⟨done, hList, rfl, rfl, hLast⟩ := hHolds
  rcases hLast with ⟨_, hNil⟩ | ⟨front, rfl⟩
  · cases hNil
  · have hPerm : (w.held ++ (head :: stack ++ (front ++ [second]))).Perm
        (second :: (w.held ++ (head :: stack ++ front))) := by
      rw [List.perm_iff_count]
      intro a
      simp only [List.count_append, List.count_cons, List.count_nil]
      omega
    have hMine := hIntact.perm hPerm
    have hNodup := hMine.owns.nodup
    have hHeadNull : head ≠ 0 := hIntact.owns.nonnull head (by simp)
    have hSecond : second ∉ head :: stack ++ front := by
      have hNot := hMine.not_mem_cells
      rw [List.mem_append, not_or] at hNot
      exact hNot.2
    have hHead : head ∉ front := by
      have hAll := (List.nodup_append'.mp hIntact.owns.nodup).2.1
      have hCells := (List.nodup_append'.mp hAll).2.1
      rw [List.cons_append, List.nodup_cons] at hCells
      intro hMem
      exact hCells.1 (by simp [hMem])
    have hNe : second ≠ head := by
      rintro rfl
      exact hSecond (by simp)
    refine ⟨(hMine.storeNext head).perm hPerm.symm, hc.pushed_eq, front ++ [second], ?_, rfl, rfl⟩
    refine hList.concat ?_ ?_ hHeadNull (Function.update_self ..)
    · intro other hOther
      rw [Function.update_of_ne (by rintro rfl; exact hHead hOther)]
      apply NodeHeap.next_storeNext_of_ne
      rintro rfl
      exact hSecond (by simp [hOther])
    · rw [Function.update_of_ne hNe]
      exact NodeHeap.next_storeNext_self ..

/-- The node of the outer call is the last one now. -/
theorem cut (hc : w.Consistent chain cells order) {stack : List Nat} {head first : Nat}
    (hPhase : w.consumer = .cutting stack head first) :
    ∃ cells', ({ w with
        list := { w.list with heap := w.list.heap.storeNext head 0 }
        consumer := .returning stack first head } : World T).Consistent chain cells' order := by
  have hHolds := hc.consumer
  have hIntact := hc.intact
  rw [hPhase] at hHolds
  obtain ⟨done, hList, rfl, rfl⟩ := hHolds
  have hPerm : (w.held ++ (head :: stack ++ done)).Perm (head :: (w.held ++ (stack ++ done))) :=
    List.perm_middle
  have hMine := (hIntact.perm hPerm).storeNext 0
  refine ⟨stack ++ (done ++ [head]), hMine.perm ?_, hc.pushed_eq, done ++ [head], hList, rfl,
    by simp, Or.inr ⟨done, rfl⟩⟩
  rw [List.perm_iff_count]
  intro a
  simp only [held, List.count_append, List.count_cons, List.count_nil]
  omega

/-- The outermost call of `reverse` has returned. -/
theorem reversed (hc : w.Consistent chain cells order) {first second : Nat}
    (hPhase : w.consumer = .returning [] first second) :
    ({ w with consumer := .reading first first } : World T).Consistent chain cells order := by
  have hHolds := hc.consumer
  rw [hPhase] at hHolds
  obtain ⟨done, hList, rfl, rfl, _⟩ := hHolds
  rw [List.append_nil] at hc ⊢
  exact ⟨hc.intact, hc.pushed_eq, [], hList, hList, rfl⟩

theorem read (hc : w.Consistent chain cells order) {first node : Nat}
    (hPhase : w.consumer = .reading first node) (hNull : node ≠ 0) :
    ∃ order', ({ w with
        list := { w.list with heap := w.list.heap.touch node }
        consumer := .reading first (w.list.heap.next node)
        received := w.received ++ [w.list.heap.data node] } : World T).Consistent
          chain cells order' := by
  have hHolds := hc.consumer
  rw [hPhase] at hHolds
  obtain ⟨seen, hAll, hList, rfl⟩ := hHolds
  cases order with
  | nil => exact absurd hList hNull
  | cons cell order =>
      obtain ⟨rfl, _, hRest⟩ := hList
      rw [hc.intact.touch_eq (show node ∈ chain ++ (w.held ++ (seen ++ node :: order)) by simp)]
      refine ⟨order, hc.intact, ?_, seen ++ [node], ?_, hRest, by simp⟩
      · simpa using hc.pushed_eq
      · simpa using hAll

theorem finish (hc : w.Consistent chain cells order) {first : Nat}
    (hPhase : w.consumer = .reading first 0) :
    ({ w with consumer := .deleting [] first } : World T).Consistent chain cells order := by
  have hHolds := hc.consumer
  rw [hPhase] at hHolds
  obtain ⟨seen, hAll, hList, rfl⟩ := hHolds
  obtain rfl : order = [] := hList.unique rfl
  exact ⟨hc.intact, hc.pushed_eq, seen ++ [], hAll, rfl, rfl⟩

theorem destroy (hc : w.Consistent chain cells order) {stack : List Nat} {cur : Nat}
    (hPhase : w.consumer = .deleting stack cur) {heap : NodeHeap T}
    {left : Option (List Nat × Nat)} (hStep : w.list.heap.destroyStep stack cur = (heap, left)) :
    ∃ cells', ({ w with
        list := { w.list with heap := heap }
        consumer := match left with
          | some (stack, cur) => .deleting stack cur
          | none => .idle } : World T).Consistent chain cells' order := by
  have hHolds := hc.consumer
  rw [hPhase] at hHolds
  obtain ⟨rest, hList, rfl, rfl⟩ := hHolds
  have hPerm :
      (chain ++ (w.held ++ (stack ++ rest))).Perm (stack ++ rest ++ (chain ++ w.held)) := by
    rw [← List.append_assoc]
    exact List.perm_append_comm
  obtain ⟨hNext, hData, hAfter⟩ :=
    NodeHeap.destroyStep_spec (hc.intact.owns.perm hPerm) hList hStep
  have hChain : IsList heap.next 0 w.list.head chain := by
    rw [hNext]
    exact hc.intact.list
  have hPushed : w.pushed =
      w.received ++ [].map heap.data ++ (chain.map heap.data).reverse := by
    rw [hData]
    exact hc.pushed_eq
  cases left with
  | none =>
      refine ⟨[], ⟨hChain, ?_⟩, hPushed, rfl, rfl⟩
      rw [List.append_nil]
      exact hAfter.2
  | some left =>
      obtain ⟨stack', cur'⟩ := left
      obtain ⟨rest', hList', hOwns⟩ := hAfter
      refine ⟨stack' ++ rest', ⟨hChain, hOwns.perm ?_⟩, hPushed, rest', hList', rfl, rfl⟩
      rw [List.perm_iff_count]
      intro a
      simp only [held, List.count_append]
      omega

/-- The node that the recursion is at is one of the chain. -/
theorem touch_cur (hc : w.Consistent chain cells order) {stack : List Nat} {cur : Nat}
    (hPhase : w.consumer = .reversing stack cur) (hNull : cur ≠ 0) :
    w.list.heap.touch cur = w.list.heap := by
  apply hc.intact.touch_eq
  have hHolds := hc.consumer
  rw [hPhase] at hHolds
  obtain ⟨rest, hList, rfl, _⟩ := hHolds
  cases rest with
  | nil => exact absurd hList hNull
  | cons node rest =>
      rw [hList.1]
      simp

theorem consume (hc : w.Consistent chain cells order) {spurious : Bool}
    (hStep : w.consume spurious = some w') :
    ∃ chain' cells' order', w'.Consistent chain' cells' order' := by
  unfold World.consume at hStep
  cases hPhase : w.consumer with
  | idle =>
      rw [hPhase] at hStep
      cases hStep
  | attempting old =>
      rw [hPhase] at hStep
      simp only [compareExchangeWeak] at hStep
      by_cases hSame : w.list.head = old ∧ spurious = false
      · rw [if_pos hSame] at hStep
        obtain rfl := Option.some.inj hStep
        exact ⟨_, _, _, hc.takeAll hPhase hSame.1⟩
      · rw [if_neg hSame] at hStep
        obtain rfl := Option.some.inj hStep
        have hHolds := hc.consumer
        rw [hPhase] at hHolds
        exact ⟨chain, cells, order, hc.intact, hc.pushed_eq, hHolds⟩
  | reversing stack cur =>
      rw [hPhase] at hStep
      by_cases hNull : cur = 0
      · simp only [hNull, ↓reduceIte] at hStep
        obtain rfl := Option.some.inj hStep
        rw [hNull] at hPhase
        exact ⟨_, _, _, hc.turn hPhase (Or.inl rfl)⟩
      · simp only [hNull, hc.touch_cur hPhase hNull, ↓reduceIte] at hStep
        obtain rfl := Option.some.inj hStep
        by_cases hEnd : w.list.heap.next cur = 0
        · rw [if_pos hEnd]
          exact ⟨_, _, _, hc.turn hPhase (Or.inr hEnd)⟩
        · rw [if_neg hEnd]
          obtain ⟨cells', hNew⟩ := hc.descend hPhase hNull hEnd
          exact ⟨_, cells', _, hNew⟩
  | returning stack first second =>
      rw [hPhase] at hStep
      cases stack with
      | nil =>
          obtain rfl := Option.some.inj hStep
          exact ⟨_, _, _, hc.reversed hPhase⟩
      | cons head stack =>
          obtain rfl := Option.some.inj hStep
          exact ⟨_, _, _, hc.link hPhase⟩
  | cutting stack head first =>
      rw [hPhase] at hStep
      obtain rfl := Option.some.inj hStep
      obtain ⟨cells', hNew⟩ := hc.cut hPhase
      exact ⟨_, cells', _, hNew⟩
  | reading first node =>
      rw [hPhase] at hStep
      by_cases hNull : node = 0
      · simp only [hNull, ↓reduceIte] at hStep
        obtain rfl := Option.some.inj hStep
        rw [hNull] at hPhase
        exact ⟨_, _, _, hc.finish hPhase⟩
      · simp only [hNull, ↓reduceIte] at hStep
        obtain rfl := Option.some.inj hStep
        obtain ⟨order', hNew⟩ := hc.read hPhase hNull
        exact ⟨_, _, order', hNew⟩
  | deleting stack cur =>
      rw [hPhase] at hStep
      rcases hDestroy : w.list.heap.destroyStep stack cur with ⟨heap, _ | ⟨stack', cur'⟩⟩
      all_goals
        obtain ⟨cells', hNew⟩ := hc.destroy hPhase hDestroy
        simp only [hDestroy] at hStep
        obtain rfl := Option.some.inj hStep
        exact ⟨_, cells', _, hNew⟩

theorem popAll (hc : w.Consistent chain cells order) (hPhase : w.consumer = .idle) :
    (({ w with consumer := .reversing [] 0 } : World T).Consistent chain cells order) ∧
      ({ w with consumer := .attempting w.list.head } : World T).Consistent chain cells order := by
  have hHolds := hc.consumer
  rw [hPhase] at hHolds
  refine ⟨⟨hc.intact, hc.pushed_eq, [], rfl, hHolds.1, hHolds.2, fun _ => rfl⟩, ?_⟩
  exact ⟨hc.intact, hc.pushed_eq, hHolds⟩

theorem step (hc : w.Consistent chain cells order) {action : Action T}
    (hStep : w.step action = some w') :
    ∃ chain' cells' order', w'.Consistent chain' cells' order' := by
  cases action with
  | consume spurious => exact hc.consume hStep
  | pushFront t n =>
      obtain ⟨hNew, rfl⟩ := of_ite_eq_some hStep
      exact ⟨_, _, _, hc.pushFront (Option.isNone_iff_eq_none.mp hNew.1) t hNew.2.1 hNew.2.2⟩
  | push spurious =>
      simp only [World.step] at hStep
      cases hPush : w.pushing with
      | none =>
          rw [hPush] at hStep
          cases hStep
      | some push =>
          rw [hPush] at hStep
          rcases hAfter : w.list.pushStep spurious push with ⟨l, _ | push'⟩
          all_goals
            have hNew := hc.push hPush hAfter
            simp only [hAfter] at hStep
            obtain rfl := Option.some.inj hStep
            exact ⟨_, _, _, hNew⟩
  | popAll =>
      simp only [World.step] at hStep
      split at hStep
      · rename_i hPhase
        split_ifs at hStep with hHead
        · obtain rfl := Option.some.inj hStep
          exact ⟨_, _, _, (hc.popAll hPhase).1⟩
        · obtain rfl := Option.some.inj hStep
          exact ⟨_, _, _, (hc.popAll hPhase).2⟩
      · cases hStep

end Consistent

theorem initial_consistent [Inhabited T] : (initial : World T).Consistent [] [] [] where
  intact := construct_intact
  pushed_eq := rfl
  consumer := ⟨rfl, rfl⟩

/-- In every interleaving of the producer and the consumer the items are read
once each, in the order in which they were pushed. -/
theorem always_inOrder [Inhabited T] (actions : List (Action T)) :
    Always step InOrder (initial : World T) actions := by
  have hAlways : Always step
      (fun w : World T => ∃ chain cells order, w.Consistent chain cells order)
      initial actions := by
    apply always_of_invariant _ actions ⟨[], [], [], initial_consistent⟩
    rintro w action w' ⟨chain, cells, order, hc⟩ hStep
    exact hc.step hStep
  apply hAlways.mono
  rintro w ⟨chain, cells, order, hc⟩
  exact hc.inOrder

/-- A push that fails because the list was taken in between is made good by
its next attempt, and goes into the next round. -/
example : (run step (initial : World Nat)
    ([.pushFront 10 1, .push false, .push false, .push false, .pushFront 20 2, .push false,
      .push false, .popAll, .consume false, .push false, .push false] ++
      List.replicate 7 (.consume false) ++ [.popAll] ++ List.replicate 6 (.consume false))).map
        World.received = some [10, 20] := by
  decide

end World
end CppPerf.Queue.SlistR.PopAll
