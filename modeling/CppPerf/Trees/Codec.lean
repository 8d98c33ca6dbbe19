import CppPerf.Text.Parsing
import CppPerf.Trees.ValidBST

/-! Trees that are written down and read back: `Codec` and `ConstructBinaryTree` of
`BinaryTree.cpp`, with `preorder` of `TreeNode.h`. A range of a vector is the list of its
elements. -/
namespace CppPerf.Trees

open Text

namespace TreeNode

/-- `preorderBST`. -/
def values : TreeNode → List Int32
  | null => []
  | node val left right => val :: left.values ++ right.values

def postorder : TreeNode → List Int32
  | null => []
  | node val left right => left.postorder ++ right.postorder ++ [val]

/-- The left subtree ends in front of the first number that is greater than the root. -/
def preorder : List Int32 → TreeNode
  | [] => null
  | val :: nodes =>
      node val (preorder (nodes.takeWhile (· ≤ val))) (preorder (nodes.dropWhile (· ≤ val)))
termination_by nodes => nodes.length
decreasing_by
  · exact Nat.lt_succ_of_le (List.takeWhile_prefix _).length_le
  · exact Nat.lt_succ_of_le (List.dropWhile_suffix _).length_le

end TreeNode

namespace Codec

open TreeNode

def serialize (root : TreeNode) : List Char :=
  root.values.flatMap fun val => to_string val.toInt ++ [' ']

def deserialize (data : List Char) : TreeNode :=
  preorder ((read_ints (data.length + 1) data).map Int32.ofInt)

/-- In every subtree the left values are not greater than the root and the right child is. -/
def Split : TreeNode → Prop
  | null => True
  | node val left right =>
      (∀ x ∈ left.values, x ≤ val) ∧ (∀ x ∈ right.val?, val < x) ∧ Split left ∧ Split right

variable {left right t : TreeNode} {val : Int32}

theorem head?_values (t : TreeNode) : t.values.head? = t.val? := by
  cases t <;> rfl

theorem preorder_cons (val : Int32) (nodes : List Int32) : preorder (val :: nodes) =
    node val (preorder (nodes.takeWhile (· ≤ val))) (preorder (nodes.dropWhile (· ≤ val))) := by
  rw [preorder]

theorem values_preorder (nodes : List Int32) : (preorder nodes).values = nodes := by
  induction nodes using preorder.induct with
  | case1 => rw [preorder, values]
  | case2 val nodes ihl ihr =>
      rw [preorder_cons, values, ihl, ihr, List.cons_append, List.takeWhile_append_dropWhile]

theorem split_preorder (nodes : List Int32) : Split (preorder nodes) := by
  induction nodes using preorder.induct with
  | case1 =>
      rw [preorder]
      trivial
  | case2 val nodes ihl ihr =>
      rw [preorder_cons]
      refine ⟨?_, ?_, ihl, ihr⟩
      · rw [values_preorder]
        intro x hx
        exact of_decide_eq_true (List.mem_takeWhile_imp (p := fun x => decide (x ≤ val)) hx)
      · rw [← head?_values, values_preorder]
        intro x hx
        have hStop := List.head?_dropWhile_not (fun x => decide (x ≤ val)) nodes
        rw [Option.mem_def.mp hx] at hStop
        exact Int32.not_le.mp (of_decide_eq_false hStop)

/-- The values in preorder are the tree, for a tree that is split. -/
theorem preorder_values (h : Split t) : preorder t.values = t := by
  induction t with
  | null => rw [values, preorder]
  | node val left right ihl ihr =>
      obtain ⟨hLeft, hRight, hl, hr⟩ := h
      have hAll : ∀ x ∈ left.values, decide (x ≤ val) = true :=
        fun x hx => decide_eq_true (hLeft x hx)
      have hStop : right.values.takeWhile (· ≤ val) = [] ∧
          right.values.dropWhile (· ≤ val) = right.values := by
        cases right with
        | null => exact ⟨rfl, rfl⟩
        | node x l r =>
            have hx : ¬x ≤ val := Int32.not_le.mpr (hRight x rfl)
            simp [values, hx]
      have hTake : (left.values ++ right.values).takeWhile (· ≤ val) = left.values := by
        rw [List.takeWhile_append_of_pos hAll, hStop.1, List.append_nil]
      have hDrop : (left.values ++ right.values).dropWhile (· ≤ val) = right.values := by
        rw [List.dropWhile_append_of_pos hAll, hStop.2]
      rw [values, List.cons_append, preorder_cons, hTake, hDrop, ihl hl, ihr hr]

theorem length_values_le (t : TreeNode) : t.values.length ≤ (serialize t).length := by
  rw [serialize]
  generalize t.values = values
  induction values with
  | nil => exact Nat.zero_le _
  | cons val values ih =>
      simp only [List.flatMap_cons, List.length_append, List.length_cons]
      omega

theorem fitsInt_toInt (val : Int32) : fitsInt val.toInt = true := by
  have hLow := val.le_toInt
  have hHigh := val.toInt_lt
  simp only [fitsInt, Bool.and_eq_true, decide_eq_true_eq]
  omega

/-- What is read back has the values of the tree in the same order. -/
theorem deserialize_serialize_eq (t : TreeNode) :
    deserialize (serialize t) = preorder t.values := by
  have hRead : read_ints ((serialize t).length + 1) (serialize t) =
      t.values.map Int32.toInt := by
    have hText : serialize t =
        (t.values.map Int32.toInt).flatMap fun x => to_string x ++ [' '] := by
      rw [serialize, List.flatMap_map]
    have hRounds : (t.values.map Int32.toInt).length < (serialize t).length + 1 := by
      rw [List.length_map]
      exact Nat.lt_succ_of_le (length_values_le t)
    rw [hText] at hRounds ⊢
    refine read_ints_flatMap ?_ hRounds
    intro x hx
    obtain ⟨val, -, rfl⟩ := List.mem_map.mp hx
    exact fitsInt_toInt val
  rw [deserialize, hRead, List.map_map]
  exact congrArg _ ((List.map_congr_left fun val _ => Int32.ofInt_toInt val).trans
    (List.map_id _))

theorem mem_values_iff {x : Int32} : x ∈ t.values ↔ x ∈ t.inorder := by
  induction t with
  | null => exact iff_of_false List.not_mem_nil List.not_mem_nil
  | node val left right ihl ihr =>
      simp only [values, inorder, List.mem_append, List.mem_cons, ihl, ihr]
      rw [or_comm (a := x = val), or_assoc]

theorem split_of_sorted (h : BST.Sorted t) : Split t := by
  induction t with
  | null => trivial
  | node val left right ihl ihr =>
      obtain ⟨hl, hr, hBelow, hAbove⟩ := BST.sorted_node_iff.mp h
      refine ⟨fun x hx => ?_, fun x hx => ?_, ihl hl, ihr hr⟩
      · exact Int32.le_of_lt (hBelow x (mem_values_iff.mp hx))
      · exact hAbove x (BST.mem_inorder_of_val? hx)

/-- A search tree survives writing and reading. -/
theorem deserialize_serialize (h : BST.Sorted t) : deserialize (serialize t) = t :=
  (deserialize_serialize_eq t).trans (preorder_values (split_of_sorted h))

end Codec

namespace ConstructBinaryTree

open TreeNode

/-- `emplace` keeps the first position of a value. -/
def vector2map (v : List Int32) (val : Int32) : Option Nat := v.idxOf? val

/-- The sizes of the subtrees of a root, in the range of the inorder values. -/
def treePartition (rootVal : Int32) (InStart InEnd : Nat) (pos_map : Int32 → Option Nat) :
    Option (Nat × Nat) := do
  let pos ← pos_map rootVal
  if InStart ≤ pos ∧ pos < InEnd then some (pos - InStart, InEnd - (pos + 1)) else none

/-- The recursion of `buildTree`, and of `buildTreePost` where the right subtree comes first.
`none` is a read outside of the vectors. -/
def build (rightFirst : Bool) (pos_map : Int32 → Option Nat) :
    (rounds : Nat) → (values : List Int32) → (InStart InEnd : Nat) → Option TreeNode
  | rounds + 1, val :: values, InStart, InEnd => do
      let (left_size, right_size) ← treePartition val InStart InEnd pos_map
      let leftValues := if rightFirst then values.drop right_size else values.take left_size
      let rightValues := if rightFirst then values.take right_size else values.drop left_size
      let left ← (if left_size = 0 then some null
        else build rightFirst pos_map rounds leftValues InStart (InStart + left_size))
      let right ← (if right_size = 0 then some null
        else build rightFirst pos_map rounds rightValues (InStart + left_size + 1) InEnd)
      return node val left right
  | _, _, _, _ => none

def buildTree (preorder inorder : List Int32) : Option TreeNode :=
  if preorder = [] then some null
  else build false (vector2map inorder) preorder.length preorder 0 inorder.length

def buildTreePost (inorder postorder : List Int32) : Option TreeNode :=
  if postorder = [] then some null
  else build true (vector2map inorder) postorder.length postorder.reverse 0 inorder.length

/-- The order in which `build` reads the values of a tree. -/
def reading (rightFirst : Bool) : TreeNode → List Int32
  | null => []
  | node val left right =>
      val :: if rightFirst then reading rightFirst right ++ reading rightFirst left
        else reading rightFirst left ++ reading rightFirst right

variable {left right t : TreeNode} {val : Int32} {rightFirst : Bool}

theorem reading_false (t : TreeNode) : reading false t = t.values := by
  induction t with
  | null => rfl
  | node val left right ihl ihr =>
      rw [reading, if_neg Bool.false_ne_true, ihl, ihr, values, List.cons_append]

theorem reading_true (t : TreeNode) : reading true t = t.postorder.reverse := by
  induction t with
  | null => rfl
  | node val left right ihl ihr =>
      simp [reading, postorder, ihl, ihr]

theorem length_reading (rightFirst : Bool) (t : TreeNode) :
    (reading rightFirst t).length = t.inorder.length := by
  induction t with
  | null => rfl
  | node val left right ihl ihr =>
      cases rightFirst <;> simp [reading, inorder, ihl, ihr] <;> omega

theorem vector2map_of_notMem {before after : List Int32} (h : val ∉ before) :
    vector2map (before ++ val :: after) val = some before.length := by
  rw [vector2map]
  induction before with
  | nil => rw [List.nil_append, List.idxOf?_cons, if_pos (beq_self_eq_true val), List.length_nil]
  | cons x before ih =>
      rw [List.mem_cons, not_or] at h
      rw [List.cons_append, List.idxOf?_cons, if_neg (by simpa using Ne.symm h.1), ih h.2]
      rfl

theorem build_of_partition {pos_map : Int32 → Option Nat} {rounds s e l r : Nat}
    {values leftValues rightValues : List Int32}
    (hPartition : treePartition val s e pos_map = some (l, r))
    (hLeftValues : (if rightFirst then values.drop r else values.take l) = leftValues)
    (hRightValues : (if rightFirst then values.take r else values.drop l) = rightValues)
    (hLeft : (if l = 0 then some null else build rightFirst pos_map rounds leftValues s (s + l)) =
      some left)
    (hRight : (if r = 0 then some null
      else build rightFirst pos_map rounds rightValues (s + l + 1) e) = some right) :
    build rightFirst pos_map (rounds + 1) (val :: values) s e = some (node val left right) := by
  rw [build, hPartition, Option.bind_eq_bind, Option.bind_some]
  dsimp only
  rw [hLeftValues, hRightValues, hLeft, hRight]
  rfl

theorem drop_or_take (left right : TreeNode) :
    (if rightFirst then
      (if rightFirst then reading rightFirst right ++ reading rightFirst left
        else reading rightFirst left ++ reading rightFirst right).drop right.inorder.length
      else (if rightFirst then reading rightFirst right ++ reading rightFirst left
        else reading rightFirst left ++ reading rightFirst right).take left.inorder.length) =
      reading rightFirst left := by
  rw [← length_reading rightFirst, ← length_reading rightFirst]
  split_ifs
  · exact List.drop_left
  · exact List.take_left

theorem take_or_drop (left right : TreeNode) :
    (if rightFirst then
      (if rightFirst then reading rightFirst right ++ reading rightFirst left
        else reading rightFirst left ++ reading rightFirst right).take right.inorder.length
      else (if rightFirst then reading rightFirst right ++ reading rightFirst left
        else reading rightFirst left ++ reading rightFirst right).drop left.inorder.length) =
      reading rightFirst right := by
  rw [← length_reading rightFirst, ← length_reading rightFirst]
  split_ifs
  · exact List.take_left
  · exact List.drop_left

/-- One call, for a tree in the middle of the inorder values. -/
theorem build_reading (rightFirst : Bool) {all : List Int32} (before after : List Int32)
    (rounds : Nat) (hAll : all = before ++ t.inorder ++ after) (hNodup : all.Nodup)
    (hSome : t ≠ null)
    (hRounds : t.inorder.length ≤ rounds) :
    build rightFirst (vector2map all) rounds (reading rightFirst t) before.length
      (before.length + t.inorder.length) = some t := by
  induction t generalizing before after rounds with
  | null => exact absurd rfl hSome
  | node val left right ihl ihr =>
      have hLength : (node val left right).inorder.length =
          left.inorder.length + right.inorder.length + 1 := by
        rw [inorder, List.length_append, List.length_cons]
        omega
      obtain ⟨rounds, rfl⟩ : ∃ n, rounds = n + 1 := ⟨rounds - 1, by omega⟩
      have hAll' : all = (before ++ left.inorder) ++ val :: (right.inorder ++ after) := by
        rw [hAll, inorder]
        simp
      have hPos : vector2map all val = some (before ++ left.inorder).length := by
        rw [hAll']
        refine vector2map_of_notMem fun hMem => ?_
        rw [hAll', List.nodup_append] at hNodup
        exact hNodup.2.2 val hMem val List.mem_cons_self rfl
      have hPartition : treePartition val before.length
          (before.length + (node val left right).inorder.length) (vector2map all) =
            some (left.inorder.length, right.inorder.length) := by
        rw [treePartition, hPos, Option.bind_eq_bind, Option.bind_some, List.length_append,
          if_pos (by omega), hLength]
        refine congrArg some (Prod.ext ?_ ?_)
        · exact Nat.add_sub_cancel_left ..
        · dsimp only
          omega
      refine build_of_partition hPartition (drop_or_take left right) (take_or_drop left right)
        ?_ ?_
      · split_ifs with hEmpty
        · rw [List.length_eq_zero_iff, BST.inorder_eq_nil_iff] at hEmpty
          rw [hEmpty]
        · refine ihl before (val :: (right.inorder ++ after)) rounds hAll' ?_ (by omega)
          rintro rfl
          exact hEmpty rfl
      · split_ifs with hEmpty
        · rw [List.length_eq_zero_iff, BST.inorder_eq_nil_iff] at hEmpty
          rw [hEmpty]
        · have hCall := ihr (before ++ left.inorder ++ [val]) after rounds
            (by rw [hAll']; simp) (by rintro rfl; exact hEmpty rfl) (by omega)
          simp only [List.length_append, List.length_singleton] at hCall
          rw [hLength, ← hCall]
          congr 1
          omega

theorem inorder_ne_nil (hSome : t ≠ null) : t.inorder ≠ [] :=
  fun hNil => hSome (BST.inorder_eq_nil_iff.mp hNil)

theorem build_all (hNodup : t.inorder.Nodup) (hSome : t ≠ null) :
    build rightFirst (vector2map t.inorder) t.inorder.length (reading rightFirst t) 0
      t.inorder.length = some t := by
  have hBuild := build_reading rightFirst [] [] t.inorder.length
    (by rw [List.nil_append, List.append_nil]) hNodup hSome le_rfl
  rwa [List.length_nil, Nat.zero_add] at hBuild

theorem reading_eq_nil_iff : reading rightFirst t = [] ↔ t = null := by
  cases t with
  | null => exact iff_of_true rfl rfl
  | node val left right => exact iff_of_false (List.cons_ne_nil _ _) (by rintro ⟨⟩)

/-- The last position of a value is kept. -/
def value_iter_map (v : List Int32) (val : Int32) : Option Nat :=
  (v.reverse.idxOf? val).map (v.length - 1 - ·)

/-- The recursion of `constructFromPrePost`, with the position of the first preorder value. The
postorder values are read from the back. -/
def construct (pre_pos_map : Int32 → Option Nat) :
    (rounds : Nat) → (pre_first : Nat) → (pre post : List Int32) → Option TreeNode
  | 0, _, _, _ => none
  | _ + 1, _, [], _ => some null
  | _ + 1, _, _ :: _, [] => none
  | rounds + 1, pre_first, val :: pre, _ :: post =>
      if pre.length < 2 ∨ pre.head? = post.head? then do
        let left ← construct pre_pos_map rounds (pre_first + 1) pre post
        return node val left null
      else do
        let left_end ← post.head?.bind pre_pos_map
        let left_size := left_end - (pre_first + 1)
        let right_size := pre.length - left_size
        let left ← construct pre_pos_map rounds (pre_first + 1) (pre.take left_size)
          (post.drop right_size)
        let right ← construct pre_pos_map rounds left_end (pre.drop left_size)
          (post.take right_size)
        return node val left right

def constructFromPrePost (pre post : List Int32) : Option TreeNode :=
  construct (value_iter_map pre) (pre.length + 1) 0 pre post.reverse

/-- The tree with every single child on the left. -/
def leftward : TreeNode → TreeNode
  | null => null
  | node val null right => node val (leftward right) null
  | node val left right => node val (leftward left) (leftward right)

theorem values_leftward (t : TreeNode) : (leftward t).values = t.values := by
  induction t using leftward.induct with
  | case1 => rfl
  | case2 val right ih =>
      rw [leftward, values, ih, values, values, values, List.append_nil]
      rfl
  | case3 val left right hLeft ihl ihr =>
      rw [leftward, values, ihl, ihr, values]
      exact hLeft

theorem postorder_leftward (t : TreeNode) : (leftward t).postorder = t.postorder := by
  induction t using leftward.induct with
  | case1 => rfl
  | case2 val right ih =>
      rw [leftward, postorder, ih, postorder, postorder, postorder, List.append_nil,
        List.nil_append]
  | case3 val left right hLeft ihl ihr =>
      rw [leftward, postorder, ihl, ihr, postorder]
      exact hLeft

theorem value_iter_map_of_notMem {before after : List Int32} (h : val ∉ after) :
    value_iter_map (before ++ val :: after) val = some before.length := by
  have hFirst : vector2map (after.reverse ++ val :: before.reverse) val =
      some after.reverse.length := vector2map_of_notMem (by rwa [List.mem_reverse])
  rw [vector2map] at hFirst
  rw [value_iter_map, List.reverse_append, List.reverse_cons, List.append_assoc,
    List.singleton_append, hFirst, Option.map_some, List.length_reverse, List.length_append,
    List.length_cons]
  exact congrArg some (by omega)

theorem length_postorder (t : TreeNode) : t.postorder.length = t.values.length := by
  rw [← List.length_reverse, ← reading_true, length_reading, ← reading_false, length_reading]

theorem head?_postorder_reverse (t : TreeNode) : t.postorder.reverse.head? = t.val? := by
  cases t with
  | null => rfl
  | node val left right => simp [postorder, val?]

theorem construct_of_one {pos_map : Int32 → Option Nat} {rounds first : Nat}
    {pre post : List Int32} {x : Int32} (hOne : pre.length < 2 ∨ pre.head? = post.head?)
    (hLeft : construct pos_map rounds (first + 1) pre post = some left) :
    construct pos_map (rounds + 1) first (val :: pre) (x :: post) =
      some (node val left null) := by
  rw [construct, if_pos hOne, hLeft]
  rfl

theorem construct_of_two {pos_map : Int32 → Option Nat} {rounds first left_size : Nat}
    {pre post : List Int32} {x : Int32} (hTwo : ¬(pre.length < 2 ∨ pre.head? = post.head?))
    (hEnd : post.head?.bind pos_map = some (first + 1 + left_size))
    (hLeft : construct pos_map rounds (first + 1) (pre.take left_size)
      (post.drop (pre.length - left_size)) = some left)
    (hRight : construct pos_map rounds (first + 1 + left_size) (pre.drop left_size)
      (post.take (pre.length - left_size)) = some right) :
    construct pos_map (rounds + 1) first (val :: pre) (x :: post) =
      some (node val left right) := by
  rw [construct, if_neg hTwo, hEnd, Option.bind_eq_bind, Option.bind_some]
  dsimp only
  rw [Nat.add_sub_cancel_left, hLeft, hRight]
  rfl

theorem postorder_reverse_node (val : Int32) (left right : TreeNode) :
    (node val left right).postorder.reverse =
      val :: (right.postorder.reverse ++ left.postorder.reverse) := by
  simp [postorder]

/-- The two subtrees of a node with different values. -/
theorem two_subtrees (hLeft : left ≠ null) (hRight : right ≠ null)
    (hNodup : (left.values ++ right.values).Nodup) :
    ¬((left.values ++ right.values).length < 2 ∨ (left.values ++ right.values).head? =
      (right.postorder.reverse ++ left.postorder.reverse).head?) := by
  cases left with
  | null => exact absurd rfl hLeft
  | node x l₁ r₁ =>
      cases right with
      | null => exact absurd rfl hRight
      | node y l₂ r₂ =>
          rintro (hShort | hSame)
          · simp only [values, List.length_append, List.length_cons] at hShort
            omega
          · rw [postorder_reverse_node] at hSame
            obtain rfl : x = y := Option.some.inj hSame
            rw [List.nodup_append] at hNodup
            exact hNodup.2.2 x List.mem_cons_self x List.mem_cons_self rfl

/-- Where the values of the right subtree start. -/
theorem start_of_right {all before after : List Int32} (hRight : right ≠ null)
    (hAll : all = before ++ [val] ++ left.values ++ right.values ++ after) (hNodup : all.Nodup) :
    (right.postorder.reverse ++ left.postorder.reverse).head?.bind (value_iter_map all) =
      some (before.length + 1 + left.values.length) := by
  cases right with
  | null => exact absurd rfl hRight
  | node y l r =>
      have hSplit : all =
          (before ++ [val] ++ left.values) ++ y :: (l.values ++ r.values ++ after) := by
        rw [hAll, values]
        simp
      have hPos : value_iter_map all y = some (before ++ [val] ++ left.values).length := by
        rw [hSplit, List.nodup_append, List.nodup_cons] at hNodup
        rw [hSplit]
        exact value_iter_map_of_notMem hNodup.2.1.1
      rw [postorder_reverse_node, List.cons_append, List.head?_cons, Option.bind_some, hPos,
        List.length_append, List.length_append, List.length_singleton]

/-- One call, for a tree in the middle of the preorder values. -/
theorem construct_values {all : List Int32} (before after : List Int32) (rounds : Nat)
    (hAll : all = before ++ t.values ++ after) (hNodup : all.Nodup)
    (hRounds : t.values.length < rounds) :
    construct (value_iter_map all) rounds before.length t.values t.postorder.reverse =
      some (leftward t) := by
  induction t using leftward.induct generalizing before after rounds with
  | case1 =>
      obtain ⟨rounds, rfl⟩ := Nat.exists_eq_add_of_lt hRounds
      rfl
  | case2 val right ih =>
      obtain ⟨rounds, rfl⟩ : ∃ n, rounds = n + 1 := ⟨rounds - 1, by omega⟩
      have hCall := ih (before ++ [val]) after rounds (by rw [hAll, values, values]; simp)
        (by rw [values, List.length_append, List.length_cons] at hRounds; omega)
      rw [List.length_append, List.length_singleton] at hCall
      rw [leftward, values, values, List.cons_append, List.nil_append, postorder_reverse_node,
        postorder, List.reverse_nil, List.append_nil]
      refine construct_of_one (Or.inr ?_) hCall
      rw [Codec.head?_values, head?_postorder_reverse]
  | case3 val left right hLeft ihl ihr =>
      obtain ⟨rounds, rfl⟩ : ∃ n, rounds = n + 1 := ⟨rounds - 1, by omega⟩
      have hLength : (node val left right).values.length =
          left.values.length + right.values.length + 1 := by
        rw [values, List.length_append, List.length_cons]
        omega
      have hCallLeft := ihl (before ++ [val]) (right.values ++ after) rounds
        (by rw [hAll, values]; simp) (by omega)
      have hCallRight := ihr (before ++ [val] ++ left.values) after rounds
        (by rw [hAll, values]; simp) (by omega)
      simp only [List.length_append, List.length_singleton] at hCallLeft hCallRight
      have hTree : leftward (node val left right) = node val (leftward left) (leftward right) := by
        rw [leftward]
        exact hLeft
      rw [hTree, values, List.cons_append, postorder_reverse_node]
      by_cases hRight : right = null
      · subst hRight
        rw [values, List.append_nil, postorder, List.reverse_nil, List.nil_append]
        refine construct_of_one (Or.inr ?_) hCallLeft
        rw [Codec.head?_values, head?_postorder_reverse]
      · have hApart : (left.values ++ right.values).Nodup := by
          have hMiddle : all = (before ++ [val]) ++ (left.values ++ right.values) ++ after := by
            rw [hAll, values]
            simp
          rw [hMiddle, List.nodup_append, List.nodup_append] at hNodup
          exact hNodup.1.2.1
        have hSizes : (left.values ++ right.values).length - left.values.length =
            right.postorder.reverse.length := by
          rw [List.length_append, Nat.add_sub_cancel_left, List.length_reverse, length_postorder]
        have hOrder : all = before ++ [val] ++ left.values ++ right.values ++ after := by
          rw [hAll, values]
          simp
        refine construct_of_two (two_subtrees hLeft hRight hApart)
          (start_of_right hRight hOrder hNodup) ?_ ?_
        · rwa [List.take_left, hSizes, List.drop_left]
        · rwa [List.drop_left, hSizes, List.take_left]

/-- The tree that is built from the values in preorder and postorder has them, and its single
children are on the left. -/
theorem constructFromPrePost_values (t : TreeNode) (hNodup : t.values.Nodup) :
    constructFromPrePost t.values t.postorder = some (leftward t) ∧
      (leftward t).values = t.values ∧ (leftward t).postorder = t.postorder := by
  refine ⟨?_, values_leftward t, postorder_leftward t⟩
  exact construct_values [] [] _ (by rw [List.nil_append, List.append_nil]) hNodup
    (Nat.lt_succ_self _)

theorem constructFromPrePost_values_right :
    constructFromPrePost [2, 3] [3, 2] = some (node 2 (node 3 null null) null) ∧
      (leftward (node 2 null (node 3 null null))).values = [2, 3] ∧
      (leftward (node 2 null (node 3 null null))).postorder = [3, 2] :=
  constructFromPrePost_values (node 2 null (node 3 null null)) (by decide)

end ConstructBinaryTree

namespace FlattenTree

open TreeNode

/-- How often each text was met (0 for no entry), and the answer. -/
structure Found where
  count : List Char → Nat
  ans : List TreeNode

/-- A node is an answer when its text is met for the second time. -/
def Found.meet (s : Found) (subtree : List Char) (root : TreeNode) : Found where
  count := Function.update s.count subtree (s.count subtree + 1)
  ans := if s.count subtree = 1 then s.ans ++ [root] else s.ans

/-- Marks left and right. -/
def join (val : Int32) (left right : List Char) : List Char :=
  to_string val.toInt ++ [',', 'L', ','] ++ left ++ ['R', ','] ++ right

def findDuplicateSubtreesFlatten : TreeNode → Found → List Char × Found
  | null, s => ([], s)
  | node val left right, s =>
      let (leftText, s) := findDuplicateSubtreesFlatten left s
      let (rightText, s) := findDuplicateSubtreesFlatten right s
      let subtree := join val leftText rightText
      (subtree, s.meet subtree (node val left right))

def findDuplicateSubtrees (root : TreeNode) : List TreeNode :=
  (findDuplicateSubtreesFlatten root ⟨fun _ => 0, []⟩).2.ans

/-- The text of a tree. -/
def text : TreeNode → List Char
  | null => []
  | node val left right => join val (text left) (text right)

/-- All subtrees that are not empty. -/
def subtrees : TreeNode → List TreeNode
  | null => []
  | node val left right => subtrees left ++ subtrees right ++ [node val left right]

variable {left right t u : TreeNode} {val : Int32} {s : Found} {rest rest' : List Char}

theorem read_int_text (rest : List Char) : read_int (text (node val left right) ++ rest) =
    some (val.toInt,
      [',', 'L', ','] ++ (text left ++ (['R', ','] ++ (text right ++ rest)))) := by
  have hText : text (node val left right) ++ rest = to_string val.toInt ++
      ([',', 'L', ','] ++ (text left ++ (['R', ','] ++ (text right ++ rest)))) := by
    simp [text, join]
  rw [hText]
  refine read_int_to_string (Codec.fitsInt_toInt val) ?_
  rintro c ⟨⟩
  rfl

/-- What can follow the text of a subtree. -/
def Follows (rest : List Char) : Prop := ∀ c ∈ rest.head?, c = 'R'

theorem read_int_of_follows (h : Follows rest) : read_int rest = none := by
  cases rest with
  | nil => rfl
  | cons c rest =>
      obtain rfl := h c rfl
      rfl

/-- A text is the text of one tree, whatever follows it. -/
theorem text_inj (h : text t ++ rest = text u ++ rest') (hRest : Follows rest)
    (hRest' : Follows rest') : t = u ∧ rest = rest' := by
  induction t generalizing u rest rest' with
  | null =>
      cases u with
      | null => exact ⟨rfl, h⟩
      | node val left right =>
          have hRead := congrArg read_int h
          rw [text, List.nil_append, read_int_text, read_int_of_follows hRest] at hRead
          exact absurd hRead (by simp)
  | node val left right ihl ihr =>
      have hRead := congrArg read_int h
      rw [read_int_text] at hRead
      cases u with
      | null =>
          rw [text, List.nil_append, read_int_of_follows hRest'] at hRead
          exact absurd hRead (by simp)
      | node val' left' right' =>
          rw [read_int_text, Option.some.injEq, Prod.mk.injEq] at hRead
          obtain ⟨hVal, hTail⟩ := hRead
          have hMiddle : ∀ rest, Follows (['R', ','] ++ rest) := by
            rintro rest c ⟨⟩
            rfl
          obtain ⟨hLeft, hSecond⟩ := ihl (List.append_cancel_left hTail) (hMiddle _) (hMiddle _)
          obtain ⟨hRight, hSame⟩ := ihr (List.append_cancel_left hSecond) hRest hRest'
          rw [Int32.toInt_inj.mp hVal, hLeft, hRight]
          exact ⟨rfl, hSame⟩

theorem text_injective : Function.Injective text := by
  intro t u h
  have hNil : Follows [] := by
    rintro c ⟨⟩
  have hSame : text t ++ [] = text u ++ [] := by rw [h]
  exact (text_inj hSame hNil hNil).1

/-- What is known when these subtrees were met. -/
def Met (seen : List TreeNode) (s : Found) : Prop :=
  ∀ t, s.count (text t) = seen.count t ∧ s.ans.count t = if 2 ≤ seen.count t then 1 else 0

theorem meet_count (s : Found) (subtree : List Char) (root : TreeNode) :
    (s.meet subtree root).count = Function.update s.count subtree (s.count subtree + 1) := rfl

theorem meet_ans (s : Found) (subtree : List Char) (root : TreeNode) :
    (s.meet subtree root).ans = if s.count subtree = 1 then s.ans ++ [root] else s.ans := rfl

theorem Met.meet {seen : List TreeNode} (h : Met seen s) (root : TreeNode) :
    Met (seen ++ [root]) (s.meet (text root) root) := by
  intro t
  obtain ⟨hCount, hAns⟩ := h t
  rw [meet_count, meet_ans, List.count_append]
  by_cases hSame : t = root
  · subst hSame
    rw [Function.update_self, List.count_singleton_self, hCount]
    refine ⟨rfl, ?_⟩
    split_ifs with hOnce hMany hMany
    · rw [List.count_append, hAns, List.count_singleton_self, if_neg (by omega)]
    · omega
    · rw [hAns, if_pos (by omega)]
    · rw [hAns, if_neg (by omega)]
  · have hText : text t ≠ text root := fun hText => hSame (text_injective hText)
    have hOther : [root].count t = 0 := List.count_eq_zero.mpr (by simpa using hSame)
    rw [Function.update_of_ne hText, hOther, Nat.add_zero]
    refine ⟨hCount, ?_⟩
    rw [← hAns]
    split_ifs
    · rw [List.count_append, hOther, Nat.add_zero]
    · rfl

theorem flatten_met {seen : List TreeNode} (h : Met seen s) (t : TreeNode) :
    (findDuplicateSubtreesFlatten t s).1 = text t ∧
      Met (seen ++ subtrees t) (findDuplicateSubtreesFlatten t s).2 := by
  induction t generalizing seen s with
  | null => exact ⟨rfl, by rwa [subtrees, List.append_nil]⟩
  | node val left right ihl ihr =>
      obtain ⟨hLeft, hMetLeft⟩ := ihl h
      obtain ⟨hRight, hMetRight⟩ := ihr hMetLeft
      rw [findDuplicateSubtreesFlatten]
      dsimp only
      rw [hLeft, hRight]
      refine ⟨rfl, ?_⟩
      have hMeet := hMetRight.meet (node val left right)
      rw [subtrees, ← List.append_assoc, ← List.append_assoc]
      exact hMeet

end FlattenTree

end CppPerf.Trees
