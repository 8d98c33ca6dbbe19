import CppPerf.Semantics.Run
import Mathlib.Data.List.GetD
import Mathlib.Data.List.Nodup
import Mathlib.Logic.Function.Basic

/-! `CBTInserter` of `BinaryTree.cpp`. Nodes have addresses, and the null pointer is zero. -/
namespace CppPerf.Trees

open Transition

structure CBTInserter.TreeNode where
  val : Int
  left : Nat
  right : Nat
deriving DecidableEq

/-- The nodes that are allocated. -/
abbrev CBTInserter.TreeHeap := Nat → Option TreeNode

structure CBTInserter where
  heap : CBTInserter.TreeHeap
  myRoot : Nat
  parents : List Nat
  leaf_nodes : List Nat

namespace CBTInserter

/-- The loop over one level. The flag tells whether a child was missing, which ends the
constructor. -/
def levelLoop (heap : TreeHeap) : (parents leaf_nodes : List Nat) → Option (List Nat × Bool)
  | [], leaf_nodes => some (leaf_nodes, false)
  | p :: parents, leaf_nodes => do
      let node ← heap p
      if node.left = 0 then return (leaf_nodes, true)
      let leaf_nodes := leaf_nodes ++ [node.left]
      if node.right = 0 then return (leaf_nodes, true)
      levelLoop heap parents (leaf_nodes ++ [node.right])

/-- The outer loop of the constructor, which takes a level in every turn. -/
def levels (heap : TreeHeap) : (fuel : Nat) → (parents : List Nat) → Option (List Nat × List Nat)
  | 0, _ => none
  | fuel + 1, parents => do
      let (leaf_nodes, missing) ← levelLoop heap parents []
      if missing then return (parents, leaf_nodes) else levels heap fuel leaf_nodes

def construct (heap : TreeHeap) (root fuel : Nat) : Option CBTInserter :=
  if root = 0 then some ⟨heap, root, [], []⟩
  else (levels heap fuel [root]).map fun (parents, leaf_nodes) =>
    ⟨heap, root, parents, leaf_nodes⟩

/-- Where every parent has its children, the leaves become the parents. -/
def advance (s : CBTInserter) : List Nat × List Nat :=
  if s.leaf_nodes.length = 2 * s.parents.length then (s.leaf_nodes, [])
  else (s.parents, s.leaf_nodes)

/-- The new node is at the address `n`. -/
def insert (s : CBTInserter) (v : Int) (n : Nat) : Option (Int × CBTInserter) := do
  let heap := Function.update s.heap n (some ⟨v, 0, 0⟩)
  if s.myRoot = 0 then
    return (-1, { s with heap, myRoot := n, parents := s.parents ++ [n] })
  let (parents, leaf_nodes) := s.advance
  let parent ← parents[leaf_nodes.length / 2]?
  let node ← heap parent
  let leaf_nodes := leaf_nodes ++ [n]
  let node := if leaf_nodes.length % 2 = 0 then { node with right := n }
    else { node with left := n }
  return (node.val, { s with heap := Function.update heap parent (some node), parents, leaf_nodes })

/-! A complete tree is the sequence of its nodes, level by level. -/

/-- Node `i` has the value `i`, and its children are the nodes `2 * i + 1` and `2 * i + 2` where
there are such. -/
structure Complete (heap : TreeHeap) (cells : List Nat) (values : List Int) : Prop where
  nodup : cells.Nodup
  nonnull : 0 ∉ cells
  length : cells.length = values.length
  node : ∀ i p v, cells[i]? = some p → values[i]? = some v →
    heap p = some ⟨v, cells.getD (2 * i + 1) 0, cells.getD (2 * i + 2) 0⟩

/-- The parents are a level, or what stands in front of the last level, and the leaves are on the
next one. -/
structure Levels (cells parents leaf_nodes front : List Nat) : Prop where
  cells_eq : cells = front ++ (parents ++ leaf_nodes)
  front_length : front.length + 1 = parents.length
  leaf_length : leaf_nodes.length ≤ 2 * parents.length

variable {heap : TreeHeap} {cells parents leaf_nodes front rest done : List Nat}
  {values : List Int} {s : CBTInserter} {i j p n : Nat} {v : Int}

theorem Complete.exists_node (h : Complete heap cells values) (hp : cells[i]? = some p) :
    ∃ v, values[i]? = some v ∧
      heap p = some ⟨v, cells.getD (2 * i + 1) 0, cells.getD (2 * i + 2) 0⟩ := by
  have hLt : i < values.length := by
    rw [← h.length]
    exact (List.getElem?_eq_some_iff.mp hp).1
  exact ⟨values[i], List.getElem?_eq_getElem hLt,
    h.node i p _ hp (List.getElem?_eq_getElem hLt)⟩

theorem getD_concat_of_ne {k : Nat} (hk : k ≠ cells.length) :
    (cells ++ [n]).getD k 0 = cells.getD k 0 := by
  rw [List.getD_eq_getElem?_getD, List.getD_eq_getElem?_getD, List.getElem?_append]
  split_ifs with hLt
  · rfl
  · rw [List.getElem?_eq_none (show cells.length ≤ k by omega),
      List.getElem?_eq_none (by simp; omega)]

theorem Complete.ne_of_ne (h : Complete heap cells values) (hi : cells[i]? = some n)
    (hp : cells[j]? = some p) (hNe : i ≠ j) : n ≠ p := by
  rintro rfl
  exact hNe ((List.getElem?_inj (List.getElem?_eq_some_iff.mp hi).1 h.nodup).mp
    (hi.trans hp.symm))

/-- A new node becomes a child of the first node that has a child missing. -/
theorem Complete.insert (h : Complete heap cells values) (hNew : n ∉ cells) (hNull : n ≠ 0)
    (hp : cells[j]? = some p) (hv : values[j]? = some v)
    (hChild : cells.length = 2 * j + 1 ∨ cells.length = 2 * j + 2) (w : Int) :
    Complete (Function.update (Function.update heap n (some ⟨w, 0, 0⟩)) p
        (some ⟨v, (cells ++ [n]).getD (2 * j + 1) 0, (cells ++ [n]).getD (2 * j + 2) 0⟩))
      (cells ++ [n]) (values ++ [w]) := by
  have hLength := h.length
  have hMem : p ∈ cells := List.mem_of_getElem? hp
  refine ⟨?_, ?_, ?_, ?_⟩
  · refine List.nodup_append.mpr ⟨h.nodup, List.nodup_singleton n, fun a ha b hb => ?_⟩
    rw [List.mem_singleton] at hb
    rintro rfl
    exact hNew (hb ▸ ha)
  · simpa [h.nonnull] using hNull.symm
  · simp [hLength]
  · intro i q u hq hu
    rcases Nat.lt_trichotomy i cells.length with hLt | rfl | hGt
    · rw [List.getElem?_append_left hLt] at hq
      rw [List.getElem?_append_left (hLength ▸ hLt)] at hu
      have hNe : q ≠ n := fun hSame => hNew (hSame ▸ List.mem_of_getElem? hq)
      by_cases hEq : i = j
      · obtain rfl : q = p := Option.some.inj (hq.symm.trans (hEq ▸ hp))
        obtain rfl : u = v := Option.some.inj (hu.symm.trans (hEq ▸ hv))
        rw [Function.update_self, hEq]
      · rw [Function.update_of_ne (h.ne_of_ne hq hp hEq), Function.update_of_ne hNe,
          h.node i q u hq hu, getD_concat_of_ne (by omega), getD_concat_of_ne (by omega)]
    · rw [List.getElem?_concat_length] at hq
      rw [hLength, List.getElem?_concat_length] at hu
      obtain rfl := Option.some.inj hq
      obtain rfl := Option.some.inj hu
      have hNe : n ≠ p := fun hSame => hNew (hSame ▸ hMem)
      rw [Function.update_of_ne hNe, Function.update_self, getD_concat_of_ne (by omega),
        getD_concat_of_ne (by omega), List.getD_eq_default _ _ (by omega),
        List.getD_eq_default _ _ (by omega)]
    · rw [List.getElem?_eq_none (by simp; omega)] at hq
      cases hq

theorem Levels.length_eq (h : Levels cells parents leaf_nodes front) :
    cells.length + 1 = 2 * parents.length + leaf_nodes.length := by
  have hFront := h.front_length
  rw [h.cells_eq, List.length_append, List.length_append]
  omega

theorem Levels.advance (h : Levels cells s.parents s.leaf_nodes front) :
    ∃ front', Levels cells s.advance.1 s.advance.2 front' ∧
      s.advance.2.length < 2 * s.advance.1.length := by
  have hFront := h.front_length
  have hLeaf := h.leaf_length
  rw [CBTInserter.advance]
  split_ifs with hFull
  · refine ⟨front ++ s.parents, ⟨?_, ?_, Nat.zero_le _⟩, ?_⟩
    · rw [h.cells_eq, List.append_nil, List.append_assoc]
    · rw [List.length_append]
      exact (show front.length + s.parents.length + 1 = s.leaf_nodes.length by omega)
    · change 0 < 2 * s.leaf_nodes.length
      omega
  · exact ⟨front, h, by simp only; omega⟩

/-- The first node with a child missing. -/
theorem Levels.parent (h : Levels cells parents leaf_nodes front)
    (hSpare : leaf_nodes.length < 2 * parents.length) :
    ∃ p, parents[leaf_nodes.length / 2]? = some p ∧
      cells[front.length + leaf_nodes.length / 2]? = some p := by
  have hLt : leaf_nodes.length / 2 < parents.length := by omega
  refine ⟨parents[leaf_nodes.length / 2], List.getElem?_eq_getElem hLt, ?_⟩
  rw [h.cells_eq, List.getElem?_append_right (Nat.le_add_right _ _), Nat.add_sub_cancel_left,
    List.getElem?_append_left hLt, List.getElem?_eq_getElem hLt]

theorem Levels.concat (h : Levels cells parents leaf_nodes front)
    (hSpare : leaf_nodes.length < 2 * parents.length) (n : Nat) :
    Levels (cells ++ [n]) parents (leaf_nodes ++ [n]) front where
  cells_eq := by simp [h.cells_eq]
  front_length := h.front_length
  leaf_length := by
    rw [List.length_append, List.length_singleton]
    exact hSpare

/-- What an inserter keeps: a complete tree, of which it knows the last levels. -/
structure Keeps (s : CBTInserter) (cells : List Nat) (values : List Int) : Prop where
  complete : Complete s.heap cells values
  root : s.myRoot = cells.headD 0
  levels : (cells = [] ∧ s.parents = [] ∧ s.leaf_nodes = []) ∨
    ∃ front, Levels cells s.parents s.leaf_nodes front

theorem getD_concat_self {k : Nat} (hk : cells.length = k) : (cells ++ [n]).getD k 0 = n := by
  rw [List.getD_eq_getElem?_getD, ← hk, List.getElem?_concat_length, Option.getD_some]

/-- The side on which the new node is put. -/
theorem child_eq (hLeft : leaf_nodes.length % 2 = 0 → cells.length = 2 * j + 1)
    (hRight : leaf_nodes.length % 2 = 1 → cells.length = 2 * j + 2) (u : Int) :
    (if (leaf_nodes ++ [n]).length % 2 = 0
      then ⟨u, cells.getD (2 * j + 1) 0, n⟩ else ⟨u, n, cells.getD (2 * j + 2) 0⟩ : TreeNode) =
      ⟨u, (cells ++ [n]).getD (2 * j + 1) 0, (cells ++ [n]).getD (2 * j + 2) 0⟩ := by
  rw [List.length_append, List.length_singleton]
  rcases Nat.mod_two_eq_zero_or_one leaf_nodes.length with hEven | hOdd
  · have hLength := hLeft hEven
    rw [if_neg (by omega), getD_concat_self hLength, getD_concat_of_ne (by omega)]
  · have hLength := hRight hOdd
    rw [if_pos (by omega), getD_concat_self hLength, getD_concat_of_ne (by omega)]

theorem Keeps.insert_first (h : Keeps s [] values) (hNull : n ≠ 0) (v : Int) :
    ∃ s', s.insert v n = some (-1, s') ∧ Keeps s' [n] [v] := by
  have hParents : s.parents = [] ∧ s.leaf_nodes = [] := by
    rcases h.levels with hNone | ⟨front, hLevels⟩
    · exact hNone.2
    · have hLength := hLevels.length_eq
      have hFront := hLevels.front_length
      rw [List.length_nil] at hLength
      omega
  have hRoot : s.myRoot = 0 := h.root
  refine ⟨_, by rw [CBTInserter.insert, if_pos hRoot]; rfl, ?_, rfl, Or.inr ⟨[], ?_⟩⟩
  · refine ⟨List.nodup_singleton n, by simpa using hNull.symm, rfl, ?_⟩
    intro i p u hp hu
    cases i with
    | zero =>
        obtain rfl := Option.some.inj hp
        obtain rfl := Option.some.inj hu
        exact Function.update_self n _ s.heap
    | succ i => cases hp
  · refine ⟨?_, ?_, ?_⟩ <;> simp [hParents]

theorem Keeps.root_ne (h : Keeps s cells values) (hSome : cells ≠ []) : s.myRoot ≠ 0 := by
  obtain ⟨c, cells, rfl⟩ := List.exists_cons_of_ne_nil hSome
  rw [h.root]
  exact fun hZero => h.complete.nonnull (hZero ▸ List.mem_cons_self)

/-- The new node is the last one, and its parent's value is answered. -/
theorem Keeps.insert_next (h : Keeps s cells values) (hSome : cells ≠ []) (hNew : n ∉ cells)
    (hNull : n ≠ 0) (v : Int) :
    ∃ s' u, s.insert v n = some (u, s') ∧ values[(values.length - 1) / 2]? = some u ∧
      Keeps s' (cells ++ [n]) (values ++ [v]) := by
  obtain ⟨front, hLevels⟩ := h.levels.resolve_left fun hNone => hSome hNone.1
  obtain ⟨front', hNext, hSpare⟩ := hLevels.advance
  obtain ⟨p, hParent, hCell⟩ := hNext.parent hSpare
  obtain ⟨u, hValue, hNode⟩ := h.complete.exists_node hCell
  have hLength := hNext.length_eq
  have hFront := hNext.front_length
  have hNe : p ≠ n := fun hSame => hNew (hSame ▸ List.mem_of_getElem? hCell)
  have hComplete := h.complete.insert hNew hNull hCell hValue (by omega) v
  refine ⟨⟨_, s.myRoot, s.advance.1, s.advance.2 ++ [n]⟩, u, ?_, ?_, hComplete, ?_,
    Or.inr ⟨front', hNext.concat hSpare n⟩⟩
  · have hLeft : s.advance.2.length % 2 = 0 →
        cells.length = 2 * (front'.length + s.advance.2.length / 2) + 1 := by omega
    have hRight : s.advance.2.length % 2 = 1 →
        cells.length = 2 * (front'.length + s.advance.2.length / 2) + 2 := by omega
    rw [← child_eq hLeft hRight u, CBTInserter.insert, if_neg (h.root_ne hSome)]
    simp only [hParent, Option.bind_eq_bind, Option.bind_some, Function.update_of_ne hNe, hNode]
    split_ifs <;> rfl
  · rw [← h.complete.length, show (cells.length - 1) / 2 = front'.length + s.advance.2.length / 2 by
      omega, hValue]
  · rw [h.root]
    cases cells with
    | nil => exact absurd rfl hSome
    | cons c cells => rfl

/-! The constructor finds the last levels of a complete tree. -/

theorem getD_append_length (front rest : List Nat) (k : Nat) :
    (front ++ rest).getD (front.length + k) 0 = rest.getD k 0 := by
  rw [List.getD_append_right _ _ _ _ (Nat.le_add_right _ _), Nat.add_sub_cancel_left]

/-- The loop over a level collects the next one, up to the first child that is missing. -/
theorem levelLoop_spec (h : Complete heap cells values) (todo : List Nat)
    (hCells : cells = front ++ (done ++ todo) ++ leaf_nodes ++ rest)
    (hFront : front.length + 1 = (done ++ todo).length)
    (hLeaf : leaf_nodes.length = 2 * done.length) :
    ∃ leaf missing, levelLoop heap todo leaf_nodes = some (leaf, missing) ∧
      if missing then Levels cells (done ++ todo) leaf front
      else leaf.length = 2 * (done ++ todo).length ∧
        ∃ rest, cells = front ++ (done ++ todo) ++ leaf ++ rest := by
  induction todo generalizing done leaf_nodes rest with
  | nil =>
      rw [List.append_nil] at hCells ⊢
      exact ⟨leaf_nodes, false, rfl, hLeaf, rest, hCells⟩
  | cons p todo ih =>
      have hCell : cells[front.length + done.length]? = some p := by
        rw [hCells]
        simp
      obtain ⟨v, -, hNode⟩ := h.exists_node hCell
      rw [List.length_append, List.length_cons] at hFront
      have hAll : (front ++ (done ++ p :: todo) ++ leaf_nodes).length =
          2 * (front.length + done.length) + 1 := by
        simp only [List.length_append, List.length_cons]
        omega
      have hGet : ∀ k, cells.getD (2 * (front.length + done.length) + 1 + k) 0 = rest.getD k 0 := by
        intro k
        rw [hCells, ← hAll, getD_append_length]
      have hLeft : cells.getD (2 * (front.length + done.length) + 1) 0 = rest.getD 0 0 := hGet 0
      have hRight : cells.getD (2 * (front.length + done.length) + 2) 0 = rest.getD 1 0 := hGet 1
      rw [hLeft, hRight] at hNode
      rw [levelLoop, hNode, Option.bind_eq_bind, Option.bind_some]
      match rest with
      | [] =>
          refine ⟨leaf_nodes, true, rfl, ?_, ?_, ?_⟩
          · rw [hCells, List.append_nil, List.append_assoc]
          · rw [List.length_append, List.length_cons]
            exact hFront
          · rw [hLeaf, List.length_append, List.length_cons]
            omega
      | [a] =>
          have ha : a ≠ 0 := fun hZero => h.nonnull (by simp [hCells, hZero])
          refine ⟨leaf_nodes ++ [a], true, if_neg ha, ?_, ?_, ?_⟩
          · rw [hCells, List.append_assoc, List.append_assoc]
          · rw [List.length_append, List.length_cons]
            exact hFront
          · simp only [List.length_append, List.length_cons, List.length_nil]
            omega
      | a :: b :: rest =>
          have ha : a ≠ 0 := fun hZero => h.nonnull (by simp [hCells, hZero])
          have hb : b ≠ 0 := fun hZero => h.nonnull (by simp [hCells, hZero])
          have hCells' : cells =
              front ++ ((done ++ [p]) ++ todo) ++ (leaf_nodes ++ [a] ++ [b]) ++ rest := by
            simp [hCells]
          obtain ⟨leaf, missing, hLoop, hResult⟩ := ih hCells' (by simp; omega) (by simp; omega)
          rw [← List.append_cons] at hResult
          exact ⟨leaf, missing, ((if_neg ha).trans (if_neg hb)).trans hLoop, hResult⟩

/-- Every level but the last has the double number of nodes of the one before. -/
theorem levels_spec (h : Complete heap cells values) {fuel : Nat}
    (hCells : cells = front ++ parents ++ rest) (hFront : front.length + 1 = parents.length)
    (hFuel : rest.length < fuel) :
    ∃ parents' leaf front', levels heap fuel parents = some (parents', leaf) ∧
      Levels cells parents' leaf front' := by
  induction fuel generalizing front parents rest with
  | zero => exact absurd hFuel (Nat.not_lt_zero _)
  | succ fuel ih =>
      have hStart : cells = front ++ ([] ++ parents) ++ [] ++ rest := by simp [hCells]
      obtain ⟨leaf, missing, hLoop, hResult⟩ := levelLoop_spec h parents hStart hFront rfl
      rw [levels, hLoop, Option.bind_eq_bind, Option.bind_some]
      cases missing with
      | true => exact ⟨parents, leaf, front, rfl, hResult⟩
      | false =>
          obtain ⟨hLeaf, rest', hNext⟩ := hResult
          rw [List.nil_append] at hLeaf hNext
          have hLength := congrArg List.length hNext
          rw [hCells] at hLength
          simp only [List.length_append] at hLength
          refine ih hNext ?_ ?_
          · rw [List.length_append]
            omega
          · omega

theorem construct_keeps (h : Complete heap cells values) {fuel : Nat}
    (hFuel : cells.length ≤ fuel) :
    ∃ s, construct heap (cells.headD 0) fuel = some s ∧ Keeps s cells values := by
  cases cells with
  | nil => exact ⟨_, rfl, h, rfl, Or.inl ⟨rfl, rfl, rfl⟩⟩
  | cons c cells =>
      have hRoot : c ≠ 0 := fun hZero => h.nonnull (hZero ▸ List.mem_cons_self)
      have hCells : c :: cells = [] ++ [c] ++ cells := rfl
      obtain ⟨parents, leaf, front, hLevels, hKnows⟩ :=
        levels_spec h hCells rfl (Nat.lt_of_succ_le hFuel)
      refine ⟨⟨heap, c, parents, leaf⟩, ?_, h, rfl, Or.inr ⟨front, hKnows⟩⟩
      change construct heap c fuel = _
      rw [construct, if_neg hRoot]
      exact congrArg (Option.map _) hLevels

/-- The inserter, and the answers so far. -/
def step : Step (CBTInserter × List Int) (Int × Nat) := fun (s, answers) (v, n) =>
  (s.insert v n).map fun (u, s) => (s, answers ++ [u])

/-- The address is free. -/
def Fresh (state : CBTInserter × List Int) (input : Int × Nat) : Prop :=
  state.1.heap input.2 = none ∧ input.2 ≠ 0

instance (state : CBTInserter × List Int) (input : Int × Nat) : Decidable (Fresh state input) :=
  inferInstanceAs (Decidable (state.1.heap input.2 = none ∧ input.2 ≠ 0))

/-- The values level by level, and the answers: the value of the parent, and -1 for the root. -/
def spec (v : List Int × List Int) (input : Int × Nat) : List Int × List Int :=
  (v.1 ++ [input.1], v.2 ++ [(v.1[(v.1.length - 1) / 2]?).getD (-1)])

theorem step_keeps (state : CBTInserter × List Int) (v : List Int × List Int) (input : Int × Nat)
    (hState : (∃ cells, Keeps state.1 cells v.1) ∧ state.2 = v.2) (hFresh : Fresh state input) :
    ∃ state', step state input = some state' ∧ (∃ cells, Keeps state'.1 cells (spec v input).1) ∧
      state'.2 = (spec v input).2 := by
  obtain ⟨s, answers⟩ := state
  obtain ⟨values, answers'⟩ := v
  obtain ⟨⟨cells, hKeeps⟩, rfl⟩ := hState
  obtain ⟨hFree, hNull⟩ := hFresh
  by_cases hEmpty : cells = []
  · subst hEmpty
    obtain rfl : values = [] := List.length_eq_zero_iff.mp hKeeps.complete.length.symm
    obtain ⟨s', hInsert, hNext⟩ := hKeeps.insert_first hNull input.1
    exact ⟨(s', _), by rw [step, hInsert]; rfl, ⟨_, hNext⟩, rfl⟩
  · have hNew : input.2 ∉ cells := by
      intro hMem
      obtain ⟨i, hi⟩ := List.mem_iff_getElem?.mp hMem
      obtain ⟨u, -, hNode⟩ := hKeeps.complete.exists_node hi
      rw [hFree] at hNode
      cases hNode
    obtain ⟨s', u, hInsert, hValue, hNext⟩ := hKeeps.insert_next hEmpty hNew hNull input.1
    refine ⟨(s', _), by rw [step, hInsert]; rfl, ⟨_, hNext⟩, ?_⟩
    rw [spec, hValue]
    rfl

/-- The constructor takes over a complete tree, and the tree stays complete: every new node is the
last one of the last level, and the value of its parent is answered. -/
theorem run_complete (h : Complete heap cells values) {fuel : Nat} (hFuel : cells.length ≤ fuel)
    (inputs : List (Int × Nat))
    (hFresh : ∀ s ∈ construct heap (cells.headD 0) fuel, Guarded step Fresh (s, []) inputs) :
    ∃ s' cells', ((construct heap (cells.headD 0) fuel).bind fun s => run step (s, []) inputs) =
        some (s', (inputs.foldl spec (values, [])).2) ∧
      Complete s'.heap cells' (inputs.foldl spec (values, [])).1 ∧ s'.myRoot = cells'.headD 0 := by
  obtain ⟨s, hConstruct, hStart⟩ := construct_keeps h hFuel
  obtain ⟨⟨s', answers⟩, hRun, ⟨cells', hKeeps⟩, rfl⟩ := run_of_guarded_simulation step_keeps
    (v := (values, [])) ⟨⟨cells, hStart⟩, rfl⟩ (hFresh s hConstruct)
  exact ⟨s', cells', by rw [hConstruct, Option.bind_some, hRun], hKeeps.complete, hKeeps.root⟩

/-- A root with one child. -/
def twoNodes : TreeHeap := fun p => [(1, ⟨10, 2, 0⟩), (2, ⟨20, 0, 0⟩)].lookup p

theorem twoNodes_complete : Complete twoNodes [1, 2] [10, 20] := by
  refine ⟨by decide, by decide, rfl, ?_⟩
  intro i p v hp hv
  match i with
  | 0 =>
      obtain rfl := Option.some.inj hp
      obtain rfl := Option.some.inj hv
      rfl
  | 1 =>
      obtain rfl := Option.some.inj hp
      obtain rfl := Option.some.inj hv
      rfl
  | i + 2 => cases hp

theorem run_complete_four : ∃ s' cells',
    ((construct twoNodes 1 2).bind fun s => run step (s, []) [(30, 3), (40, 4)]) =
        some (s', [10, 20]) ∧
      Complete s'.heap cells' [10, 20, 30, 40] ∧ s'.myRoot = cells'.headD 0 := by
  refine @run_complete _ _ _ twoNodes_complete 2 (by decide) [(30, 3), (40, 4)] ?_
  intro s hs
  obtain rfl := Option.some.inj hs
  decide

end CBTInserter
end CppPerf.Trees
