import Mathlib.Data.List.Induction
import Mathlib.Tactic.Common

/-! The three checks of `BinarySearchTree.cpp` that a tree is a search tree. `none` is the
answer false, after which the state that the recursion hands on is not read. -/
namespace CppPerf.Trees

inductive TreeNode where
  | null
  | node (val : Int32) (left right : TreeNode)
  deriving Repr, DecidableEq

namespace TreeNode

def val? : TreeNode → Option Int32
  | null => none
  | node val _ _ => some val

def inorder : TreeNode → List Int32
  | null => []
  | node val left right => left.inorder ++ val :: right.inorder

end TreeNode

namespace BST

open TreeNode

def INT_MIN : Int32 := Int32.minValue

def INT_MAX : Int32 := Int32.maxValue

/-- The extreme values that were met. -/
structure Flags where
  firstMin : Bool
  firstMax : Bool
  deriving Repr, DecidableEq

/-- What is asked of a node itself. -/
def at_node (val : Int32) (left right : TreeNode) (minV maxV : Int32) (flags : Flags) :
    Option Flags :=
  if val = INT_MIN then
    if flags.firstMin then none
    else if left ≠ null then none
    else if right.val? = some INT_MIN then none
    else if val < minV then none
    else some { flags with firstMin := true }
  else if val = INT_MAX then
    if flags.firstMax then none
    else if right ≠ null then none
    else if left.val? = some INT_MAX then none
    else if val > maxV then none
    else some { flags with firstMax := true }
  else if val ≥ maxV ∨ val ≤ minV then none
  else some flags

def isValidBST_flags : TreeNode → (minV maxV : Int32) → Flags → Option Flags
  | null, _, _, flags => some flags
  | node val left right, minV, maxV, flags => do
      let flags ← at_node val left right minV maxV flags
      let flags ← isValidBST_flags left minV val flags
      isValidBST_flags right val maxV flags

def isValidBST : TreeNode → Bool
  | null => true
  | node _ null null => true
  | root => (isValidBST_flags root INT_MIN INT_MAX ⟨false, false⟩).isSome

def isValidBST_range : TreeNode → (minV maxV : Int64) → Bool
  | null, _, _ => true
  | node val left right, minV, maxV =>
      if val.toInt64 ≥ maxV ∨ val.toInt64 ≤ minV then false
      else isValidBST_range left minV val.toInt64 && isValidBST_range right val.toInt64 maxV

def isValidBST2 (root : TreeNode) : Bool :=
  isValidBST_range root Int64.minValue Int64.maxValue

/-- `prev` is the value of the node before. -/
def validate : TreeNode → (prev : Option Int32) → Option (Option Int32)
  | null, prev => some prev
  | node val left right, prev => do
      let prev ← validate left prev
      if prev.any (· ≥ val) then none
      else validate right (some val)

def isValidBST3 (root : TreeNode) : Bool := (validate root none).isSome

variable {left right root : TreeNode} {val : Int32}

/-- The values are in increasing order. -/
def Sorted (root : TreeNode) : Prop := root.inorder.Pairwise (· < ·)

theorem sorted_node_iff : Sorted (node val left right) ↔ Sorted left ∧ Sorted right ∧
    (∀ x ∈ left.inorder, x < val) ∧ ∀ x ∈ right.inorder, val < x := by
  rw [Sorted, inorder, List.pairwise_append, List.pairwise_cons]
  constructor
  · rintro ⟨hLeft, ⟨hAbove, hRight⟩, hApart⟩
    exact ⟨hLeft, hRight, fun x hx => hApart x hx val List.mem_cons_self, hAbove⟩
  · rintro ⟨hLeft, hRight, hBelow, hAbove⟩
    refine ⟨hLeft, ⟨hAbove, hRight⟩, fun x hx y hy => ?_⟩
    rcases List.mem_cons.mp hy with rfl | hy
    · exact hBelow x hx
    · exact Int32.lt_trans (hBelow x hx) (hAbove y hy)

theorem forall_mem_inorder_iff (p : Int32 → Prop) : (∀ x ∈ (node val left right).inorder, p x) ↔
    (∀ x ∈ left.inorder, p x) ∧ p val ∧ ∀ x ∈ right.inorder, p x := by
  rw [inorder, List.forall_mem_append, List.forall_mem_cons]

theorem inorder_eq_nil_iff : root.inorder = [] ↔ root = null := by
  cases root with
  | null => exact iff_of_true rfl rfl
  | node val left right => simp [inorder]

theorem mem_inorder_of_val? {x : Int32} (h : root.val? = some x) : x ∈ root.inorder := by
  cases root with
  | null => cases h
  | node val left right =>
      rw [val?, Option.some.injEq] at h
      simp [inorder, h]

section Flags

variable {minV maxV x : Int32} {flags flags' mid : Flags} {seen : Bool}

/-- A value above the lower bound. The lowest value of all may be there a first time. -/
def AboveMin (minV : Int32) (seen : Bool) (x : Int32) : Prop :=
  minV < x ∨ x = INT_MIN ∧ minV = INT_MIN ∧ seen = false

def BelowMax (maxV : Int32) (seen : Bool) (x : Int32) : Prop :=
  x < maxV ∨ x = INT_MAX ∧ maxV = INT_MAX ∧ seen = false

theorem aboveMin_iff_of_seen (h : minV = INT_MIN → seen = true) :
    AboveMin minV seen x ↔ minV < x := by
  refine or_iff_left ?_
  rintro ⟨-, hBound, hNew⟩
  rw [h hBound] at hNew
  cases hNew

theorem belowMax_iff_of_seen (h : maxV = INT_MAX → seen = true) :
    BelowMax maxV seen x ↔ x < maxV := by
  refine or_iff_left ?_
  rintro ⟨-, hBound, hNew⟩
  rw [h hBound] at hNew
  cases hNew

theorem aboveMin_of_lt (hVal : AboveMin minV seen val) (hLt : val < x) : AboveMin minV seen x := by
  rcases hVal with hLow | ⟨rfl, rfl, -⟩
  · exact Or.inl (Int32.lt_trans hLow hLt)
  · exact Or.inl hLt

theorem belowMax_of_lt (hVal : BelowMax maxV seen val) (hLt : x < val) : BelowMax maxV seen x := by
  rcases hVal with hHigh | ⟨rfl, rfl, -⟩
  · exact Or.inl (Int32.lt_trans hLt hHigh)
  · exact Or.inl hLt

/-- The flags with the values of a list. -/
def Flags.add (flags : Flags) (values : List Int32) : Flags where
  firstMin := flags.firstMin || decide (INT_MIN ∈ values)
  firstMax := flags.firstMax || decide (INT_MAX ∈ values)

theorem Flags.add_nil (flags : Flags) : flags.add [] = flags := by
  simp [Flags.add]

theorem Flags.add_node (flags : Flags) (val : Int32) (left right : TreeNode) :
    ((flags.add [val]).add left.inorder).add right.inorder =
      flags.add (node val left right).inorder := by
  simp [Flags.add, inorder, Bool.decide_or, Bool.or_assoc, Bool.or_left_comm]

theorem min_lt_iff : INT_MIN < x ↔ x ≠ INT_MIN := by
  grind [INT_MIN]

theorem lt_max_iff : x < INT_MAX ↔ x ≠ INT_MAX := by
  grind [INT_MAX]

theorem min_ne_max : INT_MIN ≠ INT_MAX := by decide

theorem aboveMin_min_iff : AboveMin minV seen INT_MIN ↔ minV = INT_MIN ∧ seen = false := by
  refine (or_iff_right ?_).trans (and_iff_right rfl)
  grind [INT_MIN]

theorem belowMax_max_iff : BelowMax maxV seen INT_MAX ↔ maxV = INT_MAX ∧ seen = false := by
  refine (or_iff_right ?_).trans (and_iff_right rfl)
  grind [INT_MAX]

/-- A subtree to the left of a node, whose value is the bound. -/
theorem left_bounds (hLowest : val = INT_MIN → left = null) (hx : x ∈ left.inorder) :
    AboveMin minV (flags.add [val]).firstMin x ∧ BelowMax val (flags.add [val]).firstMax x ↔
      AboveMin minV flags.firstMin x ∧ x < val := by
  have hNotMin : INT_MIN ≠ val := by
    rintro rfl
    rw [hLowest rfl] at hx
    exact absurd hx List.not_mem_nil
  have hSeen : val = INT_MAX → (flags.add [val]).firstMax = true := by
    rintro rfl
    simp [Flags.add]
  have hFlag : (flags.add [val]).firstMin = flags.firstMin := by simp [Flags.add, hNotMin]
  rw [belowMax_iff_of_seen hSeen, hFlag]

theorem right_bounds {values : List Int32} (hHighest : val = INT_MAX → right = null)
    (hBelow : ∀ y ∈ values, y < val) (hx : x ∈ right.inorder) :
    AboveMin val ((flags.add [val]).add values).firstMin x ∧
      BelowMax maxV ((flags.add [val]).add values).firstMax x ↔
      val < x ∧ BelowMax maxV flags.firstMax x := by
  have hNotMax : INT_MAX ≠ val := by
    rintro rfl
    rw [hHighest rfl] at hx
    exact absurd hx List.not_mem_nil
  have hNotLeft : INT_MAX ∉ values := fun hMem => by
    have hLt := hBelow INT_MAX hMem
    grind [INT_MAX]
  have hSeen : val = INT_MIN → ((flags.add [val]).add values).firstMin = true := by
    rintro rfl
    simp [Flags.add]
  have hFlag : ((flags.add [val]).add values).firstMax = flags.firstMax := by
    simp [Flags.add, hNotMax, hNotLeft]
  rw [aboveMin_iff_of_seen hSeen, hFlag]

/-- A node is accepted by itself if its value is between the bounds, and an extreme value has
nothing on its outer side. -/
theorem at_node_eq_some_iff (hMin : minV ≠ INT_MAX) (hMax : maxV ≠ INT_MIN) :
    at_node val left right minV maxV flags = some mid ↔
      AboveMin minV flags.firstMin val ∧ BelowMax maxV flags.firstMax val ∧
      (val = INT_MIN → left = null ∧ right.val? ≠ some INT_MIN) ∧
      (val = INT_MAX → right = null ∧ left.val? ≠ some INT_MAX) ∧ mid = flags.add [val] := by
  rw [at_node]
  by_cases hLowest : val = INT_MIN
  · subst hLowest
    have hAdd : flags.add [INT_MIN] = { flags with firstMin := true } := by
      simp [Flags.add, min_ne_max.symm]
    have hBelow : BelowMax maxV flags.firstMax INT_MIN := Or.inl (min_lt_iff.mpr hMax)
    have hOther : INT_MIN = INT_MAX ↔ False := iff_of_false min_ne_max id
    simp only [aboveMin_min_iff, hBelow, hAdd, hOther, min_lt_iff]
    grind
  · by_cases hHighest : val = INT_MAX
    · subst hHighest
      have hAdd : flags.add [INT_MAX] = { flags with firstMax := true } := by
        simp [Flags.add, min_ne_max]
      have hAbove : AboveMin minV flags.firstMin INT_MAX := Or.inl (lt_max_iff.mpr hMin)
      simp only [belowMax_max_iff, hAbove, hAdd, hLowest, gt_iff_lt, lt_max_iff]
      grind
    · have hAdd : flags.add [val] = flags := by
        simp [Flags.add, Ne.symm hLowest, Ne.symm hHighest]
      simp only [AboveMin, BelowMax, hAdd, hLowest, hHighest]
      grind

theorem eq_null_of_lt_min (h : ∀ x ∈ root.inorder, x < INT_MIN) : root = null := by
  refine inorder_eq_nil_iff.mp (List.eq_nil_iff_forall_not_mem.mpr fun x hx => ?_)
  have hLt := h x hx
  grind [INT_MIN]

theorem eq_null_of_max_lt (h : ∀ x ∈ root.inorder, INT_MAX < x) : root = null := by
  refine inorder_eq_nil_iff.mp (List.eq_nil_iff_forall_not_mem.mpr fun x hx => ?_)
  have hLt := h x hx
  grind [INT_MAX]

/-- What a call answers, and the flags that it hands on. -/
def Decides (root : TreeNode) (minV maxV : Int32) (flags flags' : Flags) : Prop :=
  isValidBST_flags root minV maxV flags = some flags' ↔
    (Sorted root ∧ ∀ x ∈ root.inorder,
      AboveMin minV flags.firstMin x ∧ BelowMax maxV flags.firstMax x) ∧
    flags' = flags.add root.inorder

theorem decides_null (minV maxV : Int32) (flags flags' : Flags) :
    Decides null minV maxV flags flags' := by
  simp [Decides, isValidBST_flags, Sorted, inorder, Flags.add_nil, eq_comm]

/-- Below a lowest value no call needs its bounds. -/
theorem left_call_iff (hCall : val ≠ INT_MIN → Decides left minV val (flags.add [val]) mid)
    (hLowest : val = INT_MIN → left = null) :
    isValidBST_flags left minV val (flags.add [val]) = some mid ↔
      (Sorted left ∧ ∀ x ∈ left.inorder, AboveMin minV flags.firstMin x ∧ x < val) ∧
        mid = (flags.add [val]).add left.inorder := by
  have hDecides : Decides left minV val (flags.add [val]) mid := by
    by_cases hVal : val = INT_MIN
    · rw [hLowest hVal]
      exact decides_null _ _ _ _
    · exact hCall hVal
  exact hDecides.trans
    (and_congr_left' (and_congr_right' (forall₂_congr fun x => left_bounds hLowest)))

theorem right_call_iff (hCall : val ≠ INT_MAX →
      Decides right val maxV ((flags.add [val]).add left.inorder) flags')
    (hHighest : val = INT_MAX → right = null) (hBelow : ∀ x ∈ left.inorder, x < val) :
    isValidBST_flags right val maxV ((flags.add [val]).add left.inorder) = some flags' ↔
      (Sorted right ∧ ∀ x ∈ right.inorder, val < x ∧ BelowMax maxV flags.firstMax x) ∧
        flags' = flags.add (node val left right).inorder := by
  have hDecides : Decides right val maxV ((flags.add [val]).add left.inorder) flags' := by
    by_cases hVal : val = INT_MAX
    · rw [hHighest hVal]
      exact decides_null _ _ _ _
    · exact hCall hVal
  rw [← Flags.add_node]
  exact hDecides.trans
    (and_congr_left' (and_congr_right' (forall₂_congr fun x => right_bounds hHighest hBelow)))

theorem isValidBST_flags_eq_some_iff (hMin : minV ≠ INT_MAX) (hMax : maxV ≠ INT_MIN) :
    isValidBST_flags root minV maxV flags = some flags' ↔
      (Sorted root ∧ ∀ x ∈ root.inorder,
        AboveMin minV flags.firstMin x ∧ BelowMax maxV flags.firstMax x) ∧
      flags' = flags.add root.inorder := by
  induction root generalizing minV maxV flags flags' with
  | null => exact decides_null minV maxV flags flags'
  | node val left right ihLeft ihRight =>
      have hLeftCall : ∀ mid, val ≠ INT_MIN → Decides left minV val (flags.add [val]) mid :=
        fun mid hVal => ihLeft hMin hVal
      have hRightCall : val ≠ INT_MAX →
          Decides right val maxV ((flags.add [val]).add left.inorder) flags' :=
        fun hVal => ihRight hVal hMax
      rw [isValidBST_flags, sorted_node_iff, forall_mem_inorder_iff]
      simp only [Option.bind_eq_bind, Option.bind_eq_some_iff, at_node_eq_some_iff hMin hMax]
      constructor
      · rintro ⟨_, ⟨hLow, hHigh, hLowest, hHighest, rfl⟩, mid, hLeftRun, hRightRun⟩
        obtain ⟨⟨hLeft, hBelow⟩, rfl⟩ :=
          (left_call_iff (hLeftCall mid) fun hVal => (hLowest hVal).1).mp hLeftRun
        obtain ⟨⟨hRight, hAbove⟩, rfl⟩ := (right_call_iff hRightCall
          (fun hVal => (hHighest hVal).1) fun x hx => (hBelow x hx).2).mp hRightRun
        refine ⟨⟨⟨hLeft, hRight, fun x hx => (hBelow x hx).2, fun x hx => (hAbove x hx).1⟩,
          fun x hx => ⟨(hBelow x hx).1, ?_⟩, ⟨hLow, hHigh⟩, fun x hx => ⟨?_, (hAbove x hx).2⟩⟩, rfl⟩
        · exact belowMax_of_lt hHigh (hBelow x hx).2
        · exact aboveMin_of_lt hLow (hAbove x hx).1
      · rintro ⟨⟨⟨hLeft, hRight, hBelow, hAbove⟩, hAllLeft, ⟨hLow, hHigh⟩, hAllRight⟩, rfl⟩
        have hLowest : val = INT_MIN → left = null := fun hVal => eq_null_of_lt_min (hVal ▸ hBelow)
        have hHighest : val = INT_MAX → right = null := fun hVal =>
          eq_null_of_max_lt (hVal ▸ hAbove)
        have hLeftRun := (left_call_iff (hLeftCall _) hLowest).mpr
          ⟨⟨hLeft, fun x hx => ⟨(hAllLeft x hx).1, hBelow x hx⟩⟩, rfl⟩
        have hRightRun := (right_call_iff hRightCall hHighest hBelow).mpr
          ⟨⟨hRight, fun x hx => ⟨hAbove x hx, (hAllRight x hx).2⟩⟩, rfl⟩
        refine ⟨_, ⟨hLow, hHigh, fun hVal => ⟨hLowest hVal, ?_⟩,
          fun hVal => ⟨hHighest hVal, ?_⟩, rfl⟩, _, hLeftRun, hRightRun⟩
        · intro hTop
          have hLt := hAbove INT_MIN (mem_inorder_of_val? hTop)
          rw [hVal] at hLt
          exact Int32.lt_irrefl hLt
        · intro hTop
          have hLt := hBelow INT_MAX (mem_inorder_of_val? hTop)
          rw [hVal] at hLt
          exact Int32.lt_irrefl hLt

end Flags

section Range

variable {minV maxV : Int64}

theorem isValidBST_range_iff : isValidBST_range root minV maxV = true ↔
    Sorted root ∧ ∀ x ∈ root.inorder, minV < x.toInt64 ∧ x.toInt64 < maxV := by
  induction root generalizing minV maxV with
  | null => simp [isValidBST_range, Sorted, inorder]
  | node val left right ihLeft ihRight =>
      rw [isValidBST_range, sorted_node_iff, forall_mem_inorder_iff]
      have hWide : ∀ x y : Int32, x.toInt64 < y.toInt64 ↔ x < y := fun x y => by
        rw [Int64.lt_iff_toInt_lt, Int32.lt_iff_toInt_lt, Int32.toInt_toInt64, Int32.toInt_toInt64]
      split_ifs with hOut
      · refine iff_of_false id ?_
        rintro ⟨-, -, ⟨hLow, hHigh⟩, -⟩
        grind
      · have hIn : minV < val.toInt64 ∧ val.toInt64 < maxV := by grind
        rw [Bool.and_eq_true, ihLeft, ihRight]
        simp only [hWide]
        constructor
        · rintro ⟨⟨hLeft, hBelow⟩, ⟨hRight, hAbove⟩⟩
          refine ⟨⟨hLeft, hRight, fun x hx => (hBelow x hx).2, fun x hx => (hAbove x hx).1⟩,
            ?_, hIn, ?_⟩
          · intro x hx
            exact ⟨(hBelow x hx).1, Int64.lt_trans ((hWide x val).mpr (hBelow x hx).2) hIn.2⟩
          · intro x hx
            exact ⟨Int64.lt_trans hIn.1 ((hWide val x).mpr (hAbove x hx).1), (hAbove x hx).2⟩
        · rintro ⟨⟨hLeft, hRight, hBelow, hAbove⟩, hAllLeft, -, hAllRight⟩
          exact ⟨⟨hLeft, fun x hx => ⟨(hAllLeft x hx).1, hBelow x hx⟩⟩,
            ⟨hRight, fun x hx => ⟨hAbove x hx, (hAllRight x hx).2⟩⟩⟩

end Range

section Inorder

variable {prev prev' : Option Int32}

/-- It is enough to compare with the last of the values before. -/
theorem last_ge_iff {values : List Int32} (h : values.Pairwise (· < ·)) :
    values.getLast?.any (· ≥ val) = true ↔ ¬∀ x ∈ values, x < val := by
  induction values using List.reverseRecOn with
  | nil => simp
  | append_singleton values last ih =>
      obtain ⟨-, -, hBefore⟩ := List.pairwise_append.mp h
      rw [List.getLast?_concat, Option.any_some, decide_eq_true_eq, ge_iff_le, ← Int32.not_lt,
        not_iff_not]
      constructor
      · intro hLast x hx
        rcases List.mem_append.mp hx with hx | hx
        · exact Int32.lt_trans (hBefore x hx last List.mem_cons_self) hLast
        · rwa [List.mem_singleton.mp hx]
      · intro hAll
        exact hAll last (List.mem_append_right values List.mem_cons_self)

/-- Whether the values go on increasing from the one before, and the last one. -/
theorem validate_eq_some_iff : validate root prev = some prev' ↔
    (prev.toList ++ root.inorder).Pairwise (· < ·) ∧
      prev' = (prev.toList ++ root.inorder).getLast? := by
  induction root generalizing prev prev' with
  | null => cases prev <;> simp [validate, inorder, eq_comm]
  | node val left right ihLeft ihRight =>
      have hSplit : prev.toList ++ (node val left right).inorder =
          (prev.toList ++ left.inorder) ++ ((some val).toList ++ right.inorder) := by
        simp [inorder]
      have hLast : (prev.toList ++ (node val left right).inorder).getLast? =
          ((some val).toList ++ right.inorder).getLast? := by
        rw [hSplit, List.getLast?_append, Option.or_of_isSome]
        simp
      rw [validate, hLast, hSplit, List.pairwise_append]
      simp only [Option.bind_eq_bind, Option.bind_eq_some_iff, ihLeft]
      constructor
      · rintro ⟨mid, ⟨hLeft, rfl⟩, hRun⟩
        split_ifs at hRun with hNext
        obtain ⟨hRight, rfl⟩ := ihRight.mp hRun
        refine ⟨⟨hLeft, hRight, fun x hx y hy => ?_⟩, rfl⟩
        rw [last_ge_iff hLeft, not_not] at hNext
        rcases List.mem_cons.mp hy with rfl | hy
        · exact hNext x hx
        · exact Int32.lt_trans (hNext x hx) ((List.pairwise_cons.mp hRight).1 y hy)
      · rintro ⟨⟨hLeft, hRight, hApart⟩, rfl⟩
        refine ⟨_, ⟨hLeft, rfl⟩, ?_⟩
        rw [if_neg, ihRight]
        · exact ⟨hRight, rfl⟩
        · rw [last_ge_iff hLeft, not_not]
          exact fun x hx => hApart x hx val List.mem_cons_self

end Inorder

theorem isValidBST_iff : isValidBST root = true ↔ Sorted root := by
  have hWhole : (isValidBST_flags root INT_MIN INT_MAX ⟨false, false⟩).isSome = true ↔
      Sorted root := by
    rw [Option.isSome_iff_exists]
    simp only [isValidBST_flags_eq_some_iff min_ne_max min_ne_max.symm, exists_and_left,
      exists_eq, and_true]
    refine and_iff_left fun x _ => ⟨?_, ?_⟩
    · by_cases hLowest : x = INT_MIN
      · exact Or.inr ⟨hLowest, rfl, rfl⟩
      · exact Or.inl (min_lt_iff.mpr hLowest)
    · by_cases hHighest : x = INT_MAX
      · exact Or.inr ⟨hHighest, rfl, rfl⟩
      · exact Or.inl (lt_max_iff.mpr hHighest)
  rcases root with _ | ⟨val, _ | ⟨_, _, _⟩, _ | ⟨_, _, _⟩⟩
  · simp [isValidBST, Sorted, inorder]
  · simp [isValidBST, Sorted, inorder]
  · exact hWhole
  · exact hWhole
  · exact hWhole

theorem isValidBST2_iff : isValidBST2 root = true ↔ Sorted root := by
  rw [isValidBST2, isValidBST_range_iff]
  refine and_iff_left fun x _ => ?_
  have hLow := x.le_toInt
  have hHigh := x.toInt_lt
  rw [Int64.lt_iff_toInt_lt, Int64.lt_iff_toInt_lt, Int32.toInt_toInt64, Int64.toInt_minValue,
    Int64.toInt_maxValue]
  omega

theorem isValidBST3_iff : isValidBST3 root = true ↔ Sorted root := by
  rw [isValidBST3, Option.isSome_iff_exists]
  simp only [validate_eq_some_iff]
  simp [Sorted]

/-- The three checks say whether the values from left to right are strictly increasing. -/
theorem isValidBST_agree (root : TreeNode) :
    isValidBST root = decide (root.inorder.Pairwise (· < ·)) ∧
      isValidBST2 root = decide (root.inorder.Pairwise (· < ·)) ∧
      isValidBST3 root = decide (root.inorder.Pairwise (· < ·)) := by
  refine ⟨?_, ?_, ?_⟩
  · rw [Bool.eq_iff_iff, decide_eq_true_iff]
    exact isValidBST_iff
  · rw [Bool.eq_iff_iff, decide_eq_true_iff]
    exact isValidBST2_iff
  · rw [Bool.eq_iff_iff, decide_eq_true_iff]
    exact isValidBST3_iff

end BST

end CppPerf.Trees
