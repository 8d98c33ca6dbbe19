import CppPerf.Memory.NodeHeap
import Mathlib.Algebra.Order.Ring.Int
import Mathlib.Data.List.Sort

/-! `mergeTwoLists` and `mergeTwoLists2` of `LinkedList.cpp`. -/
namespace CppPerf.Lists

open Heap LinkedList

/-- With the pointer that is returned. -/
def mergeTwoLists : (fuel : Nat) → NodeHeap Int → (l1 l2 : Nat) → Option (NodeHeap Int × Nat)
  | 0, _, _, _ => none
  | fuel + 1, h, l1, l2 =>
      if l1 = 0 then some (h, l2)
      else if l2 = 0 then some (h, l1)
      else
        let h := (h.touch l1).touch l2
        if h.data l1 ≤ h.data l2 then
          (mergeTwoLists fuel h (h.next l1) l2).map fun (h, next) => (h.storeNext l1 next, l1)
        else
          (mergeTwoLists fuel h l1 (h.next l2)).map fun (h, next) => (h.storeNext l2 next, l2)

/-- The loop of `mergeTwoLists2` and the assignment behind it. The second branch assigns to
`cur` instead of `cur->next`, so that the node that is moved is not linked. -/
def mergeLoop : (fuel : Nat) → NodeHeap Int → (cur l1 l2 : Nat) → Option (NodeHeap Int)
  | 0, _, _, _, _ => none
  | fuel + 1, h, cur, l1, l2 =>
      if l1 ≠ 0 ∧ l2 ≠ 0 then
        let h := (h.touch l1).touch l2
        if h.data l1 < h.data l2 then
          let h := (h.storeNext cur l1).touch cur
          mergeLoop fuel h (h.next cur) (h.next l1) l2
        else
          let cur := l2
          mergeLoop fuel h (h.next cur) l1 (h.next l2)
      else some (h.storeNext cur (if l1 ≠ 0 then l1 else l2))

/-- The address of the local variable `dummy` is an argument. -/
def mergeTwoLists2 (fuel : Nat) (h : NodeHeap Int) (dummy l1 l2 : Nat) :
    Option (NodeHeap Int × Nat) :=
  (mergeLoop fuel (h.create dummy (-2 ^ 31)) dummy l1 l2).map fun h =>
    (h.free dummy, (h.touch dummy).next dummy)

/-- The pointer leads through all nodes of both lists, in the order of their values. -/
structure Merged (h : NodeHeap Int) (first second : List Nat) (h' : NodeHeap Int) (p : Nat)
    (cells : List Nat) : Prop where
  defined : h'.undefined = false
  list : IsList h'.next 0 p cells
  perm : cells.Perm (first ++ second)
  values : cells.map h'.data = cells.map h.data
  sorted : (cells.map h'.data).Pairwise (· ≤ ·)

/-- Two sorted lists without a common node, and the address of a new variable. -/
structure Inputs (h : NodeHeap Int) (dummy l1 l2 : Nat) (first second : List Nat) : Prop where
  owns : h.Owns (first ++ second)
  list1 : IsList h.next 0 l1 first
  list2 : IsList h.next 0 l2 second
  sorted1 : (first.map h.data).Pairwise (· ≤ ·)
  sorted2 : (second.map h.data).Pairwise (· ≤ ·)
  fresh : h.allocated dummy = false
  dummy_ne : dummy ≠ 0

/-- Both return a list of all nodes, with the same values in the same order. -/
def Agree (h : NodeHeap Int) (dummy l1 l2 : Nat) (first second : List Nat) : Prop :=
  ∃ fuel h1 p1 cells1 h2 p2 cells2,
    mergeTwoLists fuel h l1 l2 = some (h1, p1) ∧ Merged h first second h1 p1 cells1 ∧
    mergeTwoLists2 fuel h dummy l1 l2 = some (h2, p2) ∧ Merged h first second h2 p2 cells2 ∧
    cells1.map h1.data = cells2.map h2.data

/-- The order in which the nodes are linked. -/
def byValue (h : NodeHeap Int) (p q : Nat) : Bool := h.data p ≤ h.data q

variable {h : NodeHeap Int} {dummy l1 l2 : Nat} {first second : List Nat}

/-- Nothing but the links changes. -/
structure SameNodes (h h' : NodeHeap Int) : Prop where
  data : h'.data = h.data
  allocated : h'.allocated = h.allocated
  defined : h'.undefined = h.undefined

theorem SameNodes.storeNext {h' : NodeHeap Int} (hSame : SameNodes h h') {p : Nat}
    (hp : h.allocated p = true) (q : Nat) : SameNodes h (h'.storeNext p q) where
  data := hSame.data
  allocated := hSame.allocated
  defined := by
    rw [NodeHeap.storeNext, NodeHeap.touch, hSame.allocated, hp]
    simpa using hSame.defined

theorem SameNodes.of_storeNext {p : Nat} (hp : h.allocated p = true) (q : Nat) :
    SameNodes h (h.storeNext p q) :=
  SameNodes.storeNext ⟨rfl, rfl, rfl⟩ hp q

theorem touch_touch (hOwns : h.Owns (first ++ second)) {p q : Nat} (hp : p ∈ first)
    (hq : q ∈ second) : (h.touch p).touch q = h := by
  rw [hOwns.touch_eq (List.mem_append_left _ hp), hOwns.touch_eq (List.mem_append_right _ hq)]

/-- The recursion links the nodes in the order of a stable merge. -/
theorem mergeTwoLists_eq {fuel : Nat} (hFuel : first.length + second.length < fuel)
    (hOwns : h.Owns (first ++ second)) (h1 : IsList h.next 0 l1 first)
    (h2 : IsList h.next 0 l2 second) :
    ∃ h' p, mergeTwoLists fuel h l1 l2 = some (h', p) ∧
      IsList h'.next 0 p (first.merge second (byValue h)) ∧ SameNodes h h' := by
  induction fuel generalizing l1 l2 first second with
  | zero => omega
  | succ fuel ih =>
      cases first with
      | nil =>
          refine ⟨h, l2, if_pos h1, ?_, ⟨rfl, rfl, rfl⟩⟩
          rwa [List.nil_merge]
      | cons p first =>
          obtain ⟨rfl, hNull1, hRest1⟩ := h1
          cases second with
          | nil =>
              refine ⟨h, l1, ?_, ?_, ⟨rfl, rfl, rfl⟩⟩
              · have hEmpty : l2 = 0 := h2
                rw [mergeTwoLists, if_neg hNull1, if_pos hEmpty]
              · rw [List.merge_right]
                exact ⟨rfl, hNull1, hRest1⟩
          | cons q second =>
              obtain ⟨rfl, hNull2, hRest2⟩ := h2
              have hTouch := touch_touch hOwns (p := l1) (q := l2) (by simp) (by simp)
              simp only [List.length_cons] at hFuel
              simp only [mergeTwoLists, if_neg hNull1, if_neg hNull2, hTouch]
              by_cases hLe : h.data l1 ≤ h.data l2
              · rw [if_pos hLe, List.cons_merge_cons_pos _ _ _ (by simpa [byValue] using hLe)]
                obtain ⟨h', next, hEq, hList, hSame⟩ := @ih (h.next l1) l2 first (l2 :: second)
                  (by simp; omega) hOwns.tail hRest1 ⟨rfl, hNull2, hRest2⟩
                refine ⟨h'.storeNext l1 next, l1, by rw [hEq]; rfl, ?_,
                  hSame.storeNext (hOwns.allocated l1 (by simp)) next⟩
                apply NodeHeap.isList_link hList _ hNull1
                rw [List.mem_merge, ← List.mem_append]
                exact hOwns.head_not_mem
              · rw [if_neg hLe, List.cons_merge_cons_neg _ _ _ (by simpa [byValue] using hLe)]
                have hMoved : h.Owns (l2 :: (l1 :: first ++ second)) := hOwns.perm List.perm_middle
                obtain ⟨h', next, hEq, hList, hSame⟩ := @ih l1 (h.next l2) (l1 :: first) second
                  (by simp; omega) hMoved.tail ⟨rfl, hNull1, hRest1⟩ hRest2
                refine ⟨h'.storeNext l2 next, l2, by rw [hEq]; rfl, ?_,
                  hSame.storeNext (hOwns.allocated l2 (by simp)) next⟩
                apply NodeHeap.isList_link hList _ hNull2
                rw [List.mem_merge, ← List.mem_append]
                exact hMoved.head_not_mem

theorem merge_sorted (h1 : (first.map h.data).Pairwise (· ≤ ·))
    (h2 : (second.map h.data).Pairwise (· ≤ ·)) :
    ((first.merge second (byValue h)).map h.data).Pairwise (· ≤ ·) := by
  rw [List.pairwise_map] at h1 h2 ⊢
  have hMerge := @List.pairwise_merge _ (byValue h)
    (fun a b c hab hbc => by simp only [byValue, decide_eq_true_eq] at *; omega)
    (fun a b => by simp only [byValue, Bool.or_eq_true, decide_eq_true_eq]; omega)
    first second (h1.imp fun hab => by simpa [byValue] using hab)
    (h2.imp fun hab => by simpa [byValue] using hab)
  exact hMerge.imp fun hab => by simpa [byValue] using hab

/-- The recursive merge is always right. -/
theorem mergeTwoLists_merged (hIn : Inputs h dummy l1 l2 first second) {fuel : Nat}
    (hFuel : first.length + second.length < fuel) :
    ∃ h' p cells, mergeTwoLists fuel h l1 l2 = some (h', p) ∧
      Merged h first second h' p cells := by
  obtain ⟨h', p, hEq, hList, hSame⟩ := mergeTwoLists_eq hFuel hIn.owns hIn.list1 hIn.list2
  refine ⟨h', p, first.merge second (byValue h), hEq, ?_, hList, ?_, ?_, ?_⟩
  · rw [hSame.defined, hIn.owns.defined]
  · exact List.merge_perm_append (byValue h)
  · rw [hSame.data]
  · rw [hSame.data]
    exact merge_sorted hIn.sorted1 hIn.sorted2

end CppPerf.Lists

/-! When the two merges agree. -/
namespace CppPerf.Lists

open Heap LinkedList

variable {h h' : NodeHeap Int} {dummy cur l1 l2 p : Nat} {first second cells : List Nat}
  {fuel : Nat}

/-- As long as the first branch is taken, the loop links the nodes of the first list behind
`cur`, and at the end the second list behind them. -/
theorem mergeLoop_link (hFuel : first.length < fuel) (hAllocated : h.allocated cur = true)
    (hOwns : h.Owns (first ++ second)) (hCur : cur ∉ first ++ second)
    (h1 : IsList h.next 0 l1 first) (h2 : IsList h.next 0 l2 second)
    (hLess : ∀ p ∈ first, ∀ q ∈ second, h.data p < h.data q) :
    ∃ h', mergeLoop fuel h cur l1 l2 = some h' ∧
      IsList h'.next 0 (h'.next cur) (first ++ second) ∧ SameNodes h h' ∧
      ∀ q, q ∉ cur :: first → h'.next q = h.next q := by
  have hOther : ∀ q r, q ∉ cur :: first → (h.storeNext cur r).next q = h.next q :=
    fun q r hq => NodeHeap.next_storeNext_of_ne h fun hEq => hq (hEq ▸ List.mem_cons_self)
  induction first generalizing fuel h cur l1 with
  | nil =>
      obtain ⟨fuel, rfl⟩ := Nat.exists_eq_succ_of_ne_zero (Nat.ne_of_gt hFuel)
      obtain rfl : l1 = 0 := h1
      refine ⟨h.storeNext cur l2, by simp [mergeLoop], ?_,
        SameNodes.of_storeNext hAllocated l2, fun q => hOther q l2⟩
      rw [NodeHeap.next_storeNext_self]
      exact NodeHeap.isList_storeNext h2 hCur
  | cons node first ih =>
      obtain ⟨fuel, rfl⟩ := Nat.exists_eq_succ_of_ne_zero (Nat.ne_of_gt (Nat.zero_lt_of_lt hFuel))
      obtain ⟨rfl, hNull1, hRest⟩ := h1
      cases second with
      | nil =>
          have hNull2 : l2 = 0 := h2
          refine ⟨h.storeNext cur l1, by simp [mergeLoop, hNull1, hNull2], ?_,
            SameNodes.of_storeNext hAllocated l1, fun q => hOther q l1⟩
          rw [NodeHeap.next_storeNext_self, List.append_nil]
          exact NodeHeap.isList_storeNext ⟨rfl, hNull1, hRest⟩ (by simpa using hCur)
      | cons head second =>
          obtain ⟨rfl, hNull2, hRest2⟩ := h2
          have hLt := hLess l1 (by simp) l2 (by simp)
          have hTouch := touch_touch hOwns (p := l1) (q := l2) (by simp) (by simp)
          have hNe : cur ≠ l1 := by
            rintro rfl
            exact hCur (by simp)
          have hTouchCur : (h.storeNext cur l1).touch cur = h.storeNext cur l1 := by
            simp [NodeHeap.storeNext, NodeHeap.touch, hAllocated]
          have hRun : mergeLoop (fuel + 1) h cur l1 l2 =
              mergeLoop fuel (h.storeNext cur l1) l1 (h.next l1) l2 := by
            simp only [mergeLoop, hTouch, hTouchCur]
            rw [if_pos ⟨hNull1, hNull2⟩, if_pos hLt, NodeHeap.next_storeNext_self,
              NodeHeap.next_storeNext_of_ne h hNe.symm]
          have hSame := SameNodes.of_storeNext hAllocated l1
          have hTail : h.Owns (first ++ l2 :: second) := hOwns.tail
          have hStored : (h.storeNext cur l1).Owns (first ++ l2 :: second) := by
            refine ⟨?_, hTail.nodup, hTail.allocated, hTail.nonnull⟩
            rw [hSame.defined, hTail.defined]
          simp only [List.cons_append, List.mem_cons, List.mem_append, not_or] at hCur
          have hStart : l1 ∉ first ++ l2 :: second := hOwns.head_not_mem
          obtain ⟨h', hEq, hList, hNodes, hRestSame⟩ := @ih (h.storeNext cur l1) l1 (h.next l1) fuel
            (by simp at hFuel; omega) (hOwns.allocated l1 (by simp)) hStored hStart
            (NodeHeap.isList_storeNext hRest hCur.2.1)
            (NodeHeap.isList_storeNext ⟨rfl, hNull2, hRest2⟩ (by simp [hCur.2.2]))
            (fun p hp => hLess p (List.mem_cons_of_mem _ hp))
            (fun q r hq => NodeHeap.next_storeNext_of_ne _ fun hEq => hq (by simp [hEq]))
          refine ⟨h', hRun.trans hEq, ?_, ?_, ?_⟩
          · have hLink : h'.next cur = l1 := by
              rw [hRestSame cur (by simp [hNe, hCur.2.1]), NodeHeap.next_storeNext_self]
            rw [hLink]
            exact ⟨rfl, hNull1, hList⟩
          · exact ⟨hNodes.data, hNodes.allocated, hNodes.defined.trans hSame.defined⟩
          · intro q hq
            rw [hRestSame q fun hMem => hq (List.mem_cons_of_mem _ hMem), hOther q l1 hq]

/-- Null, or one of the nodes other than `x`. -/
def Pointer (nodes : List Nat) (x q : Nat) : Prop := q = 0 ∨ q ∈ nodes ∧ q ≠ x

/-- A store does not lead to `x` where no pointer led there. -/
theorem storeNext_pointer {nodes : List Nat} {x q : Nat}
    (hNext : ∀ r ∈ nodes, Pointer nodes x (h.next r)) (hq : Pointer nodes x q) (at' : Nat) :
    ∀ r ∈ nodes, Pointer nodes x ((h.storeNext at' q).next r) := by
  intro r hr
  by_cases hEq : r = at'
  · rw [hEq, NodeHeap.next_storeNext_self]
    exact hq
  · rw [NodeHeap.next_storeNext_of_ne h hEq]
    exact hNext r hr

/-- A node that no pointer leads to stays so. -/
theorem mergeLoop_avoids {nodes : List Nat} {x : Nat}
    (hNext : ∀ q ∈ nodes, Pointer nodes x (h.next q)) (h1 : Pointer nodes x l1)
    (h2 : Pointer nodes x l2) (hRun : mergeLoop fuel h cur l1 l2 = some h') :
    ∀ q ∈ nodes, Pointer nodes x (h'.next q) := by
  induction fuel generalizing h cur l1 l2 with
  | zero => cases hRun
  | succ fuel ih =>
      rw [mergeLoop] at hRun
      split at hRun
      · rename_i hNull
        have hMem1 : l1 ∈ nodes := (h1.resolve_left hNull.1).1
        have hMem2 : l2 ∈ nodes := (h2.resolve_left hNull.2).1
        simp only at hRun
        split at hRun
        · have hStored := storeNext_pointer hNext h1 cur
          refine ih ?_ ?_ h2 hRun
          · exact hStored
          · exact hStored l1 hMem1
        · refine ih ?_ h1 ?_ hRun
          · exact hNext
          · exact hNext l2 hMem2
      · cases hRun
        apply storeNext_pointer hNext
        split
        · exact h1
        · exact h2

/-- The first node of the second list is lost when the second branch is taken. -/
theorem mergeLoop_drops {nodes : List Nat} (hNext : ∀ q ∈ nodes, Pointer nodes l2 (h.next q))
    (h1 : Pointer nodes l2 l1) (h2 : l2 ∈ nodes) (hNull : l2 ≠ 0)
    (hList : IsList h.next 0 l1 first) (hCur : cur ∉ first) (hNodup : first.Nodup)
    (hBad : ∃ p ∈ first, ¬h.data p < h.data l2) (hRun : mergeLoop fuel h cur l1 l2 = some h') :
    ∀ q ∈ nodes, Pointer nodes l2 (h'.next q) := by
  induction fuel generalizing h cur l1 first with
  | zero => cases hRun
  | succ fuel ih =>
      obtain ⟨p, hp, hNot⟩ := hBad
      cases first with
      | nil => simp at hp
      | cons node first =>
          obtain ⟨rfl, hNull1, hRest⟩ := hList
          have hMem1 : l1 ∈ nodes := (h1.resolve_left hNull1).1
          obtain ⟨hNew, hNodup⟩ := List.nodup_cons.mp hNodup
          rw [mergeLoop, if_pos ⟨hNull1, hNull⟩] at hRun
          simp only at hRun
          split at hRun
          · rename_i hLt
            have hLater : p ∈ first := by
              rcases List.mem_cons.mp hp with rfl | hp
              · exact absurd hLt hNot
              · exact hp
            have hNe : l1 ≠ cur := fun hEq => hCur (hEq ▸ List.mem_cons_self)
            have hStored := storeNext_pointer hNext h1 cur
            have hCurRest : cur ∉ first := fun hMem => hCur (List.mem_cons_of_mem _ hMem)
            have hTail := NodeHeap.isList_storeNext (q := l1) hRest hCurRest
            rw [← NodeHeap.next_storeNext_of_ne h (q := l1) hNe] at hTail
            have hHere : (h.storeNext cur l1).next cur ∉ first := by
              rw [NodeHeap.next_storeNext_self]
              exact hNew
            refine ih ?_ ?_ ?_ ?_ hNodup ?_ hRun
            · exact hStored
            · exact hStored l1 hMem1
            · exact hTail
            · exact hHere
            · exact ⟨p, hLater, hNot⟩
          · refine mergeLoop_avoids ?_ h1 ?_ hRun
            · exact hNext
            · exact hNext l2 h2

/-- At the beginning no pointer leads to the first node of the second list. -/
theorem pointer_of_inputs (hIn : Inputs h dummy l1 l2 first (l2 :: second)) :
    ∀ q ∈ dummy :: (first ++ l2 :: second),
      Pointer (dummy :: (first ++ l2 :: second)) l2 ((h.create dummy (-2 ^ 31)).next q) := by
  intro q hq
  obtain ⟨-, hNodup2, hDisjoint⟩ := List.nodup_append.mp hIn.owns.nodup
  rcases List.mem_cons.mp hq with rfl | hNode
  · exact Or.inl (Function.update_self ..)
  · have hNe : q ≠ dummy := by
      rintro rfl
      exact hIn.owns.not_mem hIn.fresh hNode
    have hNext : (h.create dummy (-2 ^ 31)).next q = h.next q := Function.update_of_ne hNe ..
    rw [hNext]
    rcases List.mem_append.mp hNode with hq | hq
    · rcases hIn.list1.next_mem hq with hNull | hLater
      · exact Or.inl hNull
      · have hMem := List.mem_of_mem_tail hLater
        exact Or.inr ⟨by simp [hMem], hDisjoint _ hMem _ List.mem_cons_self⟩
    · rcases hIn.list2.next_mem hq with hNull | hLater
      · exact Or.inl hNull
      · have hMem : h.next q ∈ second := hLater
        refine Or.inr ⟨by simp [hMem], ?_⟩
        rintro hEq
        exact (List.nodup_cons.mp hNodup2).1 (hEq ▸ hMem)

/-- The lists are as they were, seen from the loop. -/
theorem Inputs.created (hIn : Inputs h dummy l1 l2 first second) :
    (h.create dummy (-2 ^ 31)).Owns (first ++ second) ∧ dummy ∉ first ++ second ∧
      IsList (h.create dummy (-2 ^ 31)).next 0 l1 first ∧
      IsList (h.create dummy (-2 ^ 31)).next 0 l2 second ∧
      ∀ q ∈ first ++ second, (h.create dummy (-2 ^ 31)).data q = h.data q := by
  have hNot := hIn.owns.not_mem hIn.fresh
  have hOwns := hIn.owns.create hIn.fresh hIn.dummy_ne (-2 ^ 31)
  rw [List.mem_append, not_or] at hNot
  refine ⟨⟨hOwns.defined, hIn.owns.nodup, fun q hq => hOwns.allocated q (by simp [hq]),
    hIn.owns.nonnull⟩, by simp [hNot], NodeHeap.isList_create hIn.list1 hNot.1,
    NodeHeap.isList_create hIn.list2 hNot.2, fun q hq => ?_⟩
  apply Function.update_of_ne
  rintro rfl
  exact (List.mem_append.mp hq).elim hNot.1 hNot.2

/-- Every value of the first list is less than every value of the second one. -/
def Less (h : NodeHeap Int) (first second : List Nat) : Prop :=
  ∀ p ∈ first, ∀ q ∈ second, h.data p < h.data q

theorem mergeTwoLists2_merged (hIn : Inputs h dummy l1 l2 first second)
    (hLess : Less h first second) (hFuel : first.length < fuel) :
    ∃ h' p cells, mergeTwoLists2 fuel h dummy l1 l2 = some (h', p) ∧
      Merged h first second h' p cells := by
  obtain ⟨hOwns, hNot, hList1, hList2, hData⟩ := hIn.created
  have hAllocated : (h.create dummy (-2 ^ 31)).allocated dummy = true := Function.update_self ..
  have hLessNew : ∀ p ∈ first, ∀ q ∈ second,
      (h.create dummy (-2 ^ 31)).data p < (h.create dummy (-2 ^ 31)).data q := by
    intro p hp q hq
    rw [hData p (List.mem_append_left _ hp), hData q (List.mem_append_right _ hq)]
    exact hLess p hp q hq
  obtain ⟨h', hRun, hList, hSame, -⟩ := mergeLoop_link hFuel hAllocated hOwns hNot hList1 hList2
    hLessNew
  have hTouch : h'.allocated dummy = true := by rw [hSame.allocated, hAllocated]
  have hValues : (first ++ second).map h'.data = (first ++ second).map h.data := by
    rw [hSame.data]
    exact List.map_congr_left hData
  refine ⟨h'.free dummy, h'.next dummy, first ++ second, ?_, ?_, hList, List.Perm.refl _,
    hValues, ?_⟩
  · rw [mergeTwoLists2, hRun]
    rfl
  · simp [NodeHeap.free, NodeHeap.touch, hTouch, hSame.defined, NodeHeap.create,
      hIn.owns.defined]
  · change ((first ++ second).map h'.data).Pairwise (· ≤ ·)
    rw [hValues, List.map_append, List.pairwise_append]
    refine ⟨hIn.sorted1, hIn.sorted2, fun x hx y hy => ?_⟩
    obtain ⟨p, hp, rfl⟩ := List.mem_map.mp hx
    obtain ⟨q, hq, rfl⟩ := List.mem_map.mp hy
    exact (hLess p hp q hq).le

/-- When a value of the second list is not greater than one of the first list, the first node
of the second list is not in the list that is returned. -/
theorem not_merged (hIn : Inputs h dummy l1 l2 first second) (hNot : ¬Less h first second)
    (hRun : mergeTwoLists2 fuel h dummy l1 l2 = some (h', p)) :
    ¬Merged h first second h' p cells := by
  intro hMerged
  simp only [Less, not_forall] at hNot
  obtain ⟨a, ha, b, hb, hGe⟩ := hNot
  cases second with
  | nil => simp at hb
  | cons head second =>
      obtain rfl : l2 = head := hIn.list2.1
      have hHead : ¬h.data a < h.data l2 := by
        intro hLt
        rcases List.mem_cons.mp hb with rfl | hb
        · exact hGe hLt
        · have hSorted := hIn.sorted2
          rw [List.map_cons, List.pairwise_cons] at hSorted
          exact hGe (Int.lt_of_lt_of_le hLt (hSorted.1 _ (List.mem_map_of_mem hb)))
      obtain ⟨hOwns, hFresh, hList1, hList2, hData⟩ := hIn.created
      rw [mergeTwoLists2, Option.map_eq_some_iff] at hRun
      obtain ⟨h2, hLoop, hEq⟩ := hRun
      cases hEq
      have hPointers := pointer_of_inputs hIn
      have hStart : Pointer (dummy :: (first ++ l2 :: second)) l2 l1 := by
        cases first with
        | nil => exact Or.inl hIn.list1
        | cons first rest =>
            obtain rfl : l1 = first := hIn.list1.1
            refine Or.inr ⟨by simp, ?_⟩
            rintro rfl
            have hNodup := hIn.owns.nodup
            simp at hNodup
      have hAvoids := mergeLoop_drops hPointers hStart (by simp) (hIn.owns.nonnull l2 (by simp))
        hList1 (fun hMem => hFresh (List.mem_append_left _ hMem))
        (List.nodup_append.mp hIn.owns.nodup).1
        ⟨a, ha, by rwa [hData a (by simp [ha]), hData l2 (by simp)]⟩ hLoop
      have hCells := hMerged.list.forall_cells (P := fun q =>
        Pointer (dummy :: (first ++ l2 :: second)) l2 q) (hAvoids dummy List.mem_cons_self)
        (fun q hq hNull => hAvoids q (hq.resolve_left hNull).1)
      have hMem : l2 ∈ cells := hMerged.perm.mem_iff.mpr (by simp)
      rcases hCells l2 hMem with hNull | ⟨-, hNe⟩
      · exact hIn.owns.nonnull l2 (by simp) hNull
      · exact hNe rfl

/-- Two merges have the same values. -/
theorem Merged.values_eq {h1 h2 : NodeHeap Int} {p1 p2 : Nat} {cells1 cells2 : List Nat}
    (hFirst : Merged h first second h1 p1 cells1) (hSecond : Merged h first second h2 p2 cells2) :
    cells1.map h1.data = cells2.map h2.data := by
  have hPerm : (cells1.map h1.data).Perm (cells2.map h2.data) := by
    rw [hFirst.values, hSecond.values]
    exact (hFirst.perm.trans hSecond.perm.symm).map h.data
  exact hPerm.eq_of_pairwise' (r := (· ≤ ·)) hFirst.sorted hSecond.sorted

/-- The merges agree just when no value of the first list reaches one of the second list. -/
theorem merges_agree_iff (hIn : Inputs h dummy l1 l2 first second) :
    Agree h dummy l1 l2 first second ↔ Less h first second := by
  constructor
  · rintro ⟨fuel, h1, p1, cells1, h2, p2, cells2, -, -, hRun, hMerged, -⟩
    by_contra hNot
    exact not_merged hIn hNot hRun hMerged
  · intro hLess
    obtain ⟨h1, p1, cells1, hRun1, hMerged1⟩ := mergeTwoLists_merged hIn (Nat.lt_succ_self _)
    obtain ⟨h2, p2, cells2, hRun2, hMerged2⟩ := @mergeTwoLists2_merged h dummy l1 l2 first second
      (first.length + second.length + 1) hIn hLess (by omega)
    exact ⟨_, h1, p1, cells1, h2, p2, cells2, hRun1, hMerged1, hRun2, hMerged2,
      hMerged1.values_eq hMerged2⟩

/-- Two lists of one node, at the addresses 1 and 2. -/
def twoNodes (a b : Int) : NodeHeap Int where
  data p := if p = 1 then a else b
  next _ := 0
  allocated p := p == 1 || p == 2
  undefined := false

theorem inputs_twoNodes (a b : Int) : Inputs (twoNodes a b) 3 1 2 [1] [2] where
  owns := ⟨rfl, by decide, by simp [twoNodes], by simp⟩
  list1 := ⟨rfl, by decide, rfl⟩
  list2 := ⟨rfl, by decide, rfl⟩
  sorted1 := List.pairwise_singleton ..
  sorted2 := List.pairwise_singleton ..
  fresh := rfl
  dummy_ne := by decide

theorem merges_agree_iff_twoNodes :
    Agree (twoNodes 1 2) 3 1 2 [1] [2] ↔ Less (twoNodes 1 2) [1] [2] :=
  merges_agree_iff (inputs_twoNodes 1 2)

/-- The merge of the lists 2 and 1. -/
theorem not_merges_agree : ¬Agree (twoNodes 2 1) 3 1 2 [1] [2] := by
  rintro ⟨fuel, h1, p1, cells1, h2, p2, cells2, -, -, hRun, hMerged, -⟩
  refine not_merged (inputs_twoNodes 2 1) (fun hLess => ?_) hRun hMerged
  have hLt := hLess 1 (by simp) 2 (by simp)
  exact absurd hLt (by decide)

end CppPerf.Lists
