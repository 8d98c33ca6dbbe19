import Mathlib.Data.List.Range
import Mathlib.Tactic.Common

/-! `QuadTree` of `OtherTree.cpp`. The value of a node that is no leaf is not set by the code and
not kept here. A grid is read inside of its bounds only. -/
namespace CppPerf.Trees

namespace QuadTree

inductive Node where
  | leaf (val : Bool)
  | node (topLeft topRight bottomLeft bottomRight : Node)
  deriving Repr, DecidableEq

abbrev Grid := Nat → Nat → Int

/-- The value of all cells, or -1 when they differ. -/
def eval (grid : Grid) (top left bottom right : Nat) : Int :=
  let topleft := grid top left
  if (List.range' top (bottom - top)).any fun r =>
      (List.range' left (right - left)).any fun c => grid r c ≠ topleft
  then -1
  else topleft

def construct (grid : Grid) (top left bottom right : Nat) : Node :=
  if bottom - top ≤ 1 ∧ right - left ≤ 1 then .leaf (grid top left ≠ 0)
  else
    let width := (right - left) / 2
    let depth := (bottom - top) / 2
    let val := eval grid top left bottom right
    if val = -1 then
      .node (construct grid top left (top + depth) (left + width))
        (construct grid top (left + width) (top + depth) right)
        (construct grid (top + depth) left bottom (left + width))
        (construct grid (top + depth) (left + width) bottom right)
    else .leaf (val ≠ 0)
termination_by (bottom - top) + (right - left)
decreasing_by all_goals omega

def construct_grid (n : Nat) (grid : Grid) : Node := construct grid 0 0 n n

/-- Four leaves with one value become a leaf. -/
def join (tl tr bl br : Node) : Node :=
  match tl, tr, bl, br with
  | .leaf a, .leaf b, .leaf c, .leaf d =>
      if a = b ∧ b = c ∧ c = d then .leaf a else .node tl tr bl br
  | _, _, _, _ => .node tl tr bl br

def intersect : (quadTree1 quadTree2 : Node) → Node
  | .leaf val, quadTree2 => if val then .leaf val else quadTree2
  | .node tl tr bl br, .leaf val => if val then .leaf val else .node tl tr bl br
  | .node tl₁ tr₁ bl₁ br₁, .node tl₂ tr₂ bl₂ br₂ =>
      join (intersect tl₁ tl₂) (intersect tr₁ tr₂) (intersect bl₁ bl₂) (intersect br₁ br₂)

namespace Node

/-- What a tree says of a cell of its part of the grid. -/
def value : Node → (top left bottom right : Nat) → (r c : Nat) → Bool
  | leaf val, _, _, _, _, _, _ => val
  | node tl tr bl br, top, left, bottom, right, r, c =>
      let midRow := top + (bottom - top) / 2
      let midCol := left + (right - left) / 2
      if r < midRow then
        if c < midCol then tl.value top left midRow midCol r c
        else tr.value top midCol midRow right r c
      else if c < midCol then bl.value midRow left bottom midCol r c
      else br.value midRow midCol bottom right r c

/-- No four leaves could be one. -/
def Reduced : Node → Prop
  | leaf _ => True
  | node tl tr bl br => (∀ v, ¬(tl = leaf v ∧ tr = leaf v ∧ bl = leaf v ∧ br = leaf v)) ∧
      tl.Reduced ∧ tr.Reduced ∧ bl.Reduced ∧ br.Reduced

end Node

section Construct

variable {grid g₁ g₂ : Grid} {n top left bottom right r c : Nat} {x : Int} {v : Bool}

/-- The corner that is always read, and the cells. -/
def Uniform (grid : Grid) (top left bottom right : Nat) (x : Int) : Prop :=
  grid top left = x ∧ ∀ r c, top ≤ r → r < bottom → left ≤ c → c < right → grid r c = x

/-- The two grids are the same where `construct` looks. -/
def Same (g₁ g₂ : Grid) (top left bottom right : Nat) : Prop :=
  g₁ top left = g₂ top left ∧
    ∀ r c, top ≤ r → r < bottom → left ≤ c → c < right → g₁ r c = g₂ r c

/-- A part of a grid with `n` rows and columns. -/
structure Part (n top left bottom right : Nat) : Prop where
  row : top < n
  col : left < n
  bottom_le : bottom ≤ n
  right_le : right ≤ n

/-- The grid holds zeros and ones. -/
def Binary (n : Nat) (grid : Grid) : Prop := ∀ r c, r < n → c < n → grid r c = 0 ∨ grid r c = 1

theorem eval_cases (grid : Grid) (top left bottom right : Nat) :
    (eval grid top left bottom right = -1 ∧ ∃ r c, top ≤ r ∧ r < bottom ∧ left ≤ c ∧ c < right ∧
      grid r c ≠ grid top left) ∨
    (eval grid top left bottom right = grid top left ∧
      Uniform grid top left bottom right (grid top left)) := by
  rw [eval]
  split_ifs with hMixed
  · simp only [List.any_eq_true, List.mem_range'_1, decide_eq_true_eq] at hMixed
    obtain ⟨r, ⟨hTop, hBottom⟩, c, ⟨hLeft, hRight⟩, hCell⟩ := hMixed
    exact Or.inl ⟨rfl, r, c, hTop, by omega, hLeft, by omega, hCell⟩
  · refine Or.inr ⟨rfl, rfl, fun r c hTop hBottom hLeft hRight => ?_⟩
    by_contra hCell
    refine hMixed ?_
    simp only [List.any_eq_true, List.mem_range'_1, decide_eq_true_eq]
    exact ⟨r, ⟨hTop, by omega⟩, c, ⟨hLeft, by omega⟩, hCell⟩

theorem construct_of_small (hSmall : bottom - top ≤ 1 ∧ right - left ≤ 1) :
    construct grid top left bottom right = .leaf (grid top left ≠ 0) := by
  rw [construct, if_pos hSmall]

theorem construct_of_uniform (h : Uniform grid top left bottom right x) (hx : x ≠ -1) :
    construct grid top left bottom right = .leaf (x ≠ 0) := by
  by_cases hSmall : bottom - top ≤ 1 ∧ right - left ≤ 1
  · rw [construct_of_small hSmall, h.1]
  · have hEval : eval grid top left bottom right = x := by
      rcases eval_cases grid top left bottom right with
        ⟨-, r, c, hTop, hBottom, hLeft, hRight, hCell⟩ | ⟨hEval, -⟩
      · exact absurd ((h.2 r c hTop hBottom hLeft hRight).trans h.1.symm) hCell
      · exact hEval.trans h.1
    rw [construct, if_neg hSmall]
    dsimp only
    rw [hEval, if_neg hx]

theorem construct_of_mixed (hSmall : ¬(bottom - top ≤ 1 ∧ right - left ≤ 1))
    (hEval : eval grid top left bottom right = -1) :
    construct grid top left bottom right =
      .node (construct grid top left (top + (bottom - top) / 2) (left + (right - left) / 2))
        (construct grid top (left + (right - left) / 2) (top + (bottom - top) / 2) right)
        (construct grid (top + (bottom - top) / 2) left bottom (left + (right - left) / 2))
        (construct grid (top + (bottom - top) / 2) (left + (right - left) / 2) bottom right) := by
  rw [construct, if_neg hSmall]
  dsimp only
  rw [if_pos hEval]

/-- A tree shows the grid it was built from, of any size and with any numbers. -/
theorem construct_value (hTop : top ≤ r) (hBottom : r < bottom) (hLeft : left ≤ c)
    (hRight : c < right) :
    (construct grid top left bottom right).value top left bottom right r c =
      decide (grid r c ≠ 0) := by
  induction top, left, bottom, right using construct.induct grid with
  | case1 top left bottom right hSmall =>
      obtain rfl : r = top := by omega
      obtain rfl : c = left := by omega
      rw [construct_of_small hSmall]
      rfl
  | case2 top left bottom right hSmall width depth val hVal ih₁ ih₂ ih₃ ih₄ =>
      rw [construct_of_mixed hSmall hVal, Node.value]
      split_ifs with hRow hCol hCol
      · exact ih₁ hTop hRow hLeft hCol
      · exact ih₂ hTop hRow (not_lt.mp hCol) hRight
      · exact ih₃ (not_lt.mp hRow) hBottom hLeft hCol
      · exact ih₄ (not_lt.mp hRow) hBottom (not_lt.mp hCol) hRight
  | case3 top left bottom right hSmall val hVal =>
      rcases eval_cases grid top left bottom right with ⟨hEval, -⟩ | ⟨hEval, hUniform⟩
      · exact absurd hEval hVal
      · rw [construct_of_uniform hUniform (hEval ▸ hVal), Node.value,
          hUniform.2 r c hTop hBottom hLeft hRight]

theorem Part.quarters (h : Part n top left bottom right) (hTop : top < bottom)
    (hLeft : left < right) :
    Part n top left (top + (bottom - top) / 2) (left + (right - left) / 2) ∧
    Part n top (left + (right - left) / 2) (top + (bottom - top) / 2) right ∧
    Part n (top + (bottom - top) / 2) left bottom (left + (right - left) / 2) ∧
    Part n (top + (bottom - top) / 2) (left + (right - left) / 2) bottom right := by
  obtain ⟨hRow, hCol, hRows, hCols⟩ := h
  exact ⟨⟨by omega, by omega, by omega, by omega⟩, ⟨by omega, by omega, by omega, by omega⟩,
    ⟨by omega, by omega, by omega, by omega⟩, ⟨by omega, by omega, by omega, by omega⟩⟩

/-- Two cells of a mixed part differ, so it is not empty. -/
theorem mixed_of_eval (hGrid : Binary n grid) (hPart : Part n top left bottom right)
    (hEval : eval grid top left bottom right = -1) :
    ∃ r c, top ≤ r ∧ r < bottom ∧ left ≤ c ∧ c < right ∧ grid r c ≠ grid top left := by
  rcases eval_cases grid top left bottom right with ⟨-, hCells⟩ | ⟨hCorner, -⟩
  · exact hCells
  · have hBit := hGrid top left hPart.row hPart.col
    omega

theorem Binary.eq_of_iff (hGrid : Binary n grid) {r' c' : Nat} (hr : r < n) (hc : c < n)
    (hr' : r' < n) (hc' : c' < n) (h : grid r c ≠ 0 ↔ grid r' c' ≠ 0) :
    grid r c = grid r' c' := by
  have h₁ := hGrid r c hr hc
  have h₂ := hGrid r' c' hr' hc'
  omega

theorem construct_reduced (hGrid : Binary n grid) (hPart : Part n top left bottom right) :
    (construct grid top left bottom right).Reduced := by
  induction top, left, bottom, right using construct.induct grid with
  | case1 top left bottom right hSmall =>
      rw [construct_of_small hSmall]
      trivial
  | case2 top left bottom right hSmall width depth val hVal ih₁ ih₂ ih₃ ih₄ =>
      obtain ⟨r, c, hTop, hBottom, hLeft, hRight, hCell⟩ := mixed_of_eval hGrid hPart hVal
      obtain ⟨h₁, h₂, h₃, h₄⟩ := hPart.quarters (by omega) (by omega)
      have hShown : (construct grid top left bottom right).value top left bottom right r c =
          decide (grid r c ≠ 0) := construct_value hTop hBottom hLeft hRight
      have hCorner : (construct grid top left bottom right).value top left bottom right top left =
          decide (grid top left ≠ 0) := construct_value le_rfl (by omega) le_rfl (by omega)
      rw [construct_of_mixed hSmall hVal] at hShown hCorner ⊢
      refine ⟨?_, ih₁ h₁, ih₂ h₂, ih₃ h₃, ih₄ h₄⟩
      rintro v ⟨hTl, hTr, hBl, hBr⟩
      simp only [hTl, hTr, hBl, hBr, Node.value, ite_self] at hShown hCorner
      refine hCell (hGrid.eq_of_iff (lt_of_lt_of_le hBottom hPart.bottom_le)
        (lt_of_lt_of_le hRight hPart.right_le) hPart.row hPart.col ?_)
      exact decide_eq_decide.mp (hShown.symm.trans hCorner)
  | case3 top left bottom right hSmall val hVal =>
      rcases eval_cases grid top left bottom right with ⟨hEval, -⟩ | ⟨hEval, hUniform⟩
      · exact absurd hEval hVal
      · rw [construct_of_uniform hUniform (hEval ▸ hVal)]
        trivial

theorem Same.quarters (h : Same g₁ g₂ top left bottom right) (hTop : top < bottom)
    (hLeft : left < right) :
    Same g₁ g₂ top left (top + (bottom - top) / 2) (left + (right - left) / 2) ∧
    Same g₁ g₂ top (left + (right - left) / 2) (top + (bottom - top) / 2) right ∧
    Same g₁ g₂ (top + (bottom - top) / 2) left bottom (left + (right - left) / 2) ∧
    Same g₁ g₂ (top + (bottom - top) / 2) (left + (right - left) / 2) bottom right := by
  have hCell : ∀ r c, top ≤ r → r < bottom → left ≤ c → c < right → g₁ r c = g₂ r c := h.2
  refine ⟨⟨hCell _ _ ?_ ?_ ?_ ?_, fun r c _ _ _ _ => hCell r c ?_ ?_ ?_ ?_⟩,
    ⟨hCell _ _ ?_ ?_ ?_ ?_, fun r c _ _ _ _ => hCell r c ?_ ?_ ?_ ?_⟩,
    ⟨hCell _ _ ?_ ?_ ?_ ?_, fun r c _ _ _ _ => hCell r c ?_ ?_ ?_ ?_⟩,
    ⟨hCell _ _ ?_ ?_ ?_ ?_, fun r c _ _ _ _ => hCell r c ?_ ?_ ?_ ?_⟩⟩ <;> omega

theorem Same.eval_eq (h : Same g₁ g₂ top left bottom right) :
    eval g₁ top left bottom right = eval g₂ top left bottom right := by
  rcases eval_cases g₁ top left bottom right with
    ⟨hEval₁, r, c, hTop, hBottom, hLeft, hRight, hCell⟩ | ⟨hEval₁, hUniform⟩
  · rcases eval_cases g₂ top left bottom right with ⟨hEval₂, -⟩ | ⟨-, hUniform⟩
    · exact hEval₁.trans hEval₂.symm
    · rw [h.1, h.2 r c hTop hBottom hLeft hRight] at hCell
      exact absurd (hUniform.2 r c hTop hBottom hLeft hRight) hCell
  · rcases eval_cases g₂ top left bottom right with
      ⟨-, r, c, hTop, hBottom, hLeft, hRight, hCell⟩ | ⟨hEval₂, -⟩
    · rw [← h.1, ← h.2 r c hTop hBottom hLeft hRight] at hCell
      exact absurd (hUniform.2 r c hTop hBottom hLeft hRight) hCell
    · rw [hEval₁, hEval₂, h.1]

theorem Uniform.same (h : Uniform grid top left bottom right x) :
    Same grid (fun _ _ => x) top left bottom right := h

/-- `construct` reads its part of the grid only. -/
theorem construct_congr (h₁ : Binary n g₁) (hPart : Part n top left bottom right)
    (h : Same g₁ g₂ top left bottom right) :
    construct g₁ top left bottom right = construct g₂ top left bottom right := by
  induction top, left, bottom, right using construct.induct g₁ with
  | case1 top left bottom right hSmall =>
      rw [construct_of_small hSmall, construct_of_small hSmall, h.1]
  | case2 top left bottom right hSmall width depth val hVal ih₁ ih₂ ih₃ ih₄ =>
      obtain ⟨r, c, hTop, hBottom, hLeft, hRight, -⟩ := mixed_of_eval h₁ hPart hVal
      obtain ⟨hPart₁, hPart₂, hPart₃, hPart₄⟩ := hPart.quarters (by omega) (by omega)
      obtain ⟨hSame₁, hSame₂, hSame₃, hSame₄⟩ := h.quarters (by omega) (by omega)
      have hEval : eval g₂ top left bottom right = -1 := h.eval_eq.symm.trans hVal
      rw [construct_of_mixed hSmall hVal, construct_of_mixed hSmall hEval]
      exact congr (congr (congrArg₂ _ (ih₁ hPart₁ hSame₁) (ih₂ hPart₂ hSame₂))
        (ih₃ hPart₃ hSame₃)) (ih₄ hPart₄ hSame₄)
  | case3 top left bottom right hSmall val hVal =>
      have hEval := h.eval_eq
      rcases eval_cases g₁ top left bottom right with ⟨hMixed, -⟩ | ⟨hCorner, hUniform⟩
      · exact absurd hMixed hVal
      · have hUniform₂ : Uniform g₂ top left bottom right (g₁ top left) := by
          refine ⟨h.1.symm, fun r c hTop hBottom hLeft hRight => ?_⟩
          rw [← h.2 r c hTop hBottom hLeft hRight, hUniform.2 r c hTop hBottom hLeft hRight]
        rw [construct_of_uniform hUniform (hCorner ▸ hVal),
          construct_of_uniform hUniform₂ (hCorner ▸ hVal)]

end Construct

section Intersect

variable {g₁ g₂ : Grid} {n top left bottom right r c : Nat} {t u tl tr bl br : Node}

theorem join_cases (tl tr bl br : Node) :
    (∃ v, tl = .leaf v ∧ tr = .leaf v ∧ bl = .leaf v ∧ br = .leaf v ∧
      join tl tr bl br = .leaf v) ∨
    ((∀ v, ¬(tl = .leaf v ∧ tr = .leaf v ∧ bl = .leaf v ∧ br = .leaf v)) ∧
      join tl tr bl br = .node tl tr bl br) := by
  unfold join
  split
  · next a b c d =>
      split_ifs with hSame
      · obtain ⟨rfl, rfl, rfl⟩ := hSame
        exact Or.inl ⟨a, rfl, rfl, rfl, rfl, rfl⟩
      · refine Or.inr ⟨?_, rfl⟩
        rintro v ⟨hTl, hTr, hBl, hBr⟩
        rw [Node.leaf.injEq] at hTl hTr hBl hBr
        exact hSame ⟨hTl.trans hTr.symm, hTr.trans hBl.symm, hBl.trans hBr.symm⟩
  · next hNone =>
      refine Or.inr ⟨?_, rfl⟩
      rintro v ⟨hTl, hTr, hBl, hBr⟩
      exact hNone v v v v hTl hTr hBl hBr

theorem join_value : (join tl tr bl br).value top left bottom right r c =
    (Node.node tl tr bl br).value top left bottom right r c := by
  rcases join_cases tl tr bl br with ⟨v, rfl, rfl, rfl, rfl, hJoin⟩ | ⟨-, hJoin⟩
  · rw [hJoin]
    simp only [Node.value, ite_self]
  · rw [hJoin]

theorem join_reduced (hTl : tl.Reduced) (hTr : tr.Reduced) (hBl : bl.Reduced)
    (hBr : br.Reduced) : (join tl tr bl br).Reduced := by
  rcases join_cases tl tr bl br with ⟨v, -, -, -, -, hJoin⟩ | ⟨hDiffer, hJoin⟩
  · rw [hJoin]
    trivial
  · rw [hJoin]
    exact ⟨hDiffer, hTl, hTr, hBl, hBr⟩

/-- The union of two trees of any shape. -/
theorem intersect_value (t u : Node) (top left bottom right r c : Nat) :
    (intersect t u).value top left bottom right r c =
      (t.value top left bottom right r c || u.value top left bottom right r c) := by
  induction t generalizing u top left bottom right with
  | leaf val => cases val <;> simp [intersect, Node.value]
  | node tl₁ tr₁ bl₁ br₁ ih₁ ih₂ ih₃ ih₄ =>
      cases u with
      | leaf val => cases val <;> simp [intersect, Node.value]
      | node tl₂ tr₂ bl₂ br₂ =>
          rw [intersect, join_value]
          simp only [Node.value]
          split_ifs
          · exact ih₁ ..
          · exact ih₂ ..
          · exact ih₃ ..
          · exact ih₄ ..

theorem intersect_reduced (hT : t.Reduced) (hU : u.Reduced) : (intersect t u).Reduced := by
  induction t generalizing u with
  | leaf val =>
      rw [intersect]
      split_ifs
      · trivial
      · exact hU
  | node tl₁ tr₁ bl₁ br₁ ih₁ ih₂ ih₃ ih₄ =>
      cases u with
      | leaf val =>
          rw [intersect]
          split_ifs
          · trivial
          · exact hT
      | node tl₂ tr₂ bl₂ br₂ =>
          rw [intersect]
          obtain ⟨-, hTl₁, hTr₁, hBl₁, hBr₁⟩ := hT
          obtain ⟨-, hTl₂, hTr₂, hBl₂, hBr₂⟩ := hU
          exact join_reduced (ih₁ hTl₁ hTl₂) (ih₂ hTr₁ hTr₂) (ih₃ hBl₁ hBl₂) (ih₄ hBr₁ hBr₂)

/-- The grid with the ones of both. -/
def union (g₁ g₂ : Grid) : Grid := fun r c => if g₁ r c ≠ 0 ∨ g₂ r c ≠ 0 then 1 else 0

theorem binary_bits (n : Nat) (p : Nat → Nat → Prop) [∀ r c, Decidable (p r c)] :
    Binary n fun r c => if p r c then 1 else 0 := by
  intro r c _ _
  dsimp only
  split_ifs
  · exact Or.inr rfl
  · exact Or.inl rfl

theorem union_binary (n : Nat) (g₁ g₂ : Grid) : Binary n (union g₁ g₂) :=
  binary_bits n fun r c => g₁ r c ≠ 0 ∨ g₂ r c ≠ 0

theorem union_comm (g₁ g₂ : Grid) : union g₁ g₂ = union g₂ g₁ := by
  funext r c
  simp only [union, or_comm]

theorem union_ne_zero_iff (g₁ g₂ : Grid) (r c : Nat) :
    union g₁ g₂ r c ≠ 0 ↔ g₁ r c ≠ 0 ∨ g₂ r c ≠ 0 := by
  rw [union]
  split_ifs with h
  · exact iff_of_true (by decide) h
  · exact iff_of_false (fun hZero => hZero rfl) h

/-- A part of ones covers the other grid. -/
theorem construct_union_of_one (h : Uniform g₁ top left bottom right 1) :
    construct (union g₁ g₂) top left bottom right = .leaf true := by
  have hUnion : Uniform (union g₁ g₂) top left bottom right 1 := by
    refine ⟨?_, fun r c hTop hBottom hLeft hRight => ?_⟩
    · exact if_pos (Or.inl (by rw [h.1]; decide))
    · exact if_pos (Or.inl (by rw [h.2 r c hTop hBottom hLeft hRight]; decide))
  rw [construct_of_uniform hUnion (by decide)]
  rfl

theorem union_of_zero (h₂ : Binary n g₂) (hr : r < n) (hc : c < n) (hZero : g₁ r c = 0) :
    g₂ r c = union g₁ g₂ r c := by
  rw [union]
  rcases h₂ r c hr hc with hBit | hBit <;> simp [hZero, hBit]

/-- A part of zeros leaves the other grid as it is. -/
theorem construct_union_of_zero (h₂ : Binary n g₂) (hPart : Part n top left bottom right)
    (h : Uniform g₁ top left bottom right 0) :
    construct (union g₁ g₂) top left bottom right = construct g₂ top left bottom right := by
  refine (construct_congr h₂ hPart ⟨?_, fun r c hTop hBottom hLeft hRight => ?_⟩).symm
  · exact union_of_zero h₂ hPart.row hPart.col h.1
  · exact union_of_zero h₂ (lt_of_lt_of_le hBottom hPart.bottom_le)
      (lt_of_lt_of_le hRight hPart.right_le) (h.2 r c hTop hBottom hLeft hRight)

/-- A mixed part of two grids. -/
theorem construct_eq_join {grid : Grid} (hGrid : Binary n grid)
    (hPart : Part n top left bottom right) (hSmall : ¬(bottom - top ≤ 1 ∧ right - left ≤ 1))
    (hTop : top < bottom) (hLeft : left < right) :
    construct grid top left bottom right =
      join (construct grid top left (top + (bottom - top) / 2) (left + (right - left) / 2))
        (construct grid top (left + (right - left) / 2) (top + (bottom - top) / 2) right)
        (construct grid (top + (bottom - top) / 2) left bottom (left + (right - left) / 2))
        (construct grid (top + (bottom - top) / 2) (left + (right - left) / 2) bottom right) := by
  rcases eval_cases grid top left bottom right with ⟨hEval, -⟩ | ⟨-, hUniform⟩
  · have hReduced := construct_reduced hGrid hPart
    rw [construct_of_mixed hSmall hEval] at hReduced ⊢
    rcases join_cases (construct grid top left (top + (bottom - top) / 2)
        (left + (right - left) / 2)) _ _ _ with ⟨v, hTl, hTr, hBl, hBr, -⟩ | ⟨-, hJoin⟩
    · exact absurd ⟨hTl, hTr, hBl, hBr⟩ (hReduced.1 v)
    · exact hJoin.symm
  · have hCorner := hGrid top left hPart.row hPart.col
    have hBit : grid top left ≠ -1 := by omega
    obtain ⟨h₁, h₂, h₃, h₄⟩ := hUniform.same.quarters hTop hLeft
    rw [construct_of_uniform hUniform hBit, construct_of_uniform h₁ hBit,
      construct_of_uniform h₂ hBit, construct_of_uniform h₃ hBit, construct_of_uniform h₄ hBit,
      join, if_pos ⟨rfl, rfl, rfl⟩]

/-- The part has one value, or it is split. -/
theorem uniform_or_mixed {grid : Grid} (hGrid : Binary n grid)
    (hPart : Part n top left bottom right) :
    Uniform grid top left bottom right 0 ∨ Uniform grid top left bottom right 1 ∨
      (¬(bottom - top ≤ 1 ∧ right - left ≤ 1) ∧ eval grid top left bottom right = -1) := by
  have hUniform : Uniform grid top left bottom right (grid top left) ∨
      (¬(bottom - top ≤ 1 ∧ right - left ≤ 1) ∧ eval grid top left bottom right = -1) := by
    by_cases hSmall : bottom - top ≤ 1 ∧ right - left ≤ 1
    · refine Or.inl ⟨rfl, fun r c hTop hBottom hLeft hRight => ?_⟩
      obtain rfl : r = top := by omega
      obtain rfl : c = left := by omega
      rfl
    · rcases eval_cases grid top left bottom right with ⟨hEval, -⟩ | ⟨-, hUniform⟩
      · exact Or.inr ⟨hSmall, hEval⟩
      · exact Or.inl hUniform
  rcases hUniform with hUniform | hMixed
  · rcases hGrid top left hPart.row hPart.col with hZero | hOne
    · exact Or.inl (hZero ▸ hUniform)
    · exact Or.inr (Or.inl (hOne ▸ hUniform))
  · exact Or.inr (Or.inr hMixed)

theorem intersect_of_zero (h₂ : Binary n g₂) (hPart : Part n top left bottom right)
    (h : Uniform g₁ top left bottom right 0) :
    intersect (construct g₁ top left bottom right) (construct g₂ top left bottom right) =
      construct (union g₁ g₂) top left bottom right := by
  rw [construct_union_of_zero h₂ hPart h, construct_of_uniform h (by decide)]
  rfl

theorem intersect_of_one (h : Uniform g₁ top left bottom right 1) (u : Node) :
    intersect (construct g₁ top left bottom right) u =
      construct (union g₁ g₂) top left bottom right := by
  rw [construct_union_of_one h, construct_of_uniform h (by decide)]
  rfl

/-- The union of the trees of two grids is the tree of the union, with no leaf too many. -/
theorem intersect_construct (h₁ : Binary n g₁) (h₂ : Binary n g₂)
    (hPart : Part n top left bottom right) :
    intersect (construct g₁ top left bottom right) (construct g₂ top left bottom right) =
      construct (union g₁ g₂) top left bottom right := by
  induction top, left, bottom, right using construct.induct g₁ with
  | case2 top left bottom right hSmall width depth val hVal ih₁ ih₂ ih₃ ih₄ =>
      have hNode := construct_of_mixed hSmall hVal
      rcases uniform_or_mixed h₂ hPart with hZero | hOne | ⟨-, hEval⟩
      · rw [union_comm, construct_union_of_zero h₁ hPart hZero,
          construct_of_uniform hZero (by decide), hNode]
        rfl
      · rw [union_comm, construct_union_of_one hOne, construct_of_uniform hOne (by decide), hNode]
        rfl
      · obtain ⟨r, c, hTop, hBottom, hLeft, hRight, -⟩ := mixed_of_eval h₁ hPart hVal
        obtain ⟨hPart₁, hPart₂, hPart₃, hPart₄⟩ := hPart.quarters (by omega) (by omega)
        rw [hNode, construct_of_mixed hSmall hEval, intersect,
          construct_eq_join (union_binary n g₁ g₂) hPart hSmall (by omega) (by omega),
          ← ih₁ hPart₁, ← ih₂ hPart₂, ← ih₃ hPart₃, ← ih₄ hPart₄]
  | case1 top left bottom right hSmall =>
      rcases uniform_or_mixed h₁ hPart with hZero | hOne | ⟨hLarge, -⟩
      · exact intersect_of_zero h₂ hPart hZero
      · exact intersect_of_one hOne _
      · exact absurd hSmall hLarge
  | case3 top left bottom right hSmall val hVal =>
      rcases uniform_or_mixed h₁ hPart with hZero | hOne | ⟨-, hEval⟩
      · exact intersect_of_zero h₂ hPart hZero
      · exact intersect_of_one hOne _
      · exact absurd hEval hVal

theorem part_of_pos (hn : 0 < n) : Part n 0 0 n n := ⟨hn, hn, le_rfl, le_rfl⟩

/-- The tree of a grid shows each cell and has no leaf too many, also when the sides are no power
of two. -/
theorem construct_grid_shows {grid : Grid} (hn : 0 < n) (hGrid : Binary n grid) :
    (construct_grid n grid).Reduced ∧ ∀ r c, r < n → c < n →
      (construct_grid n grid).value 0 0 n n r c = decide (grid r c ≠ 0) :=
  ⟨construct_reduced hGrid (part_of_pos hn),
    fun r c hr hc => construct_value (Nat.zero_le r) hr (Nat.zero_le c) hc⟩

theorem construct_grid_shows_three :
    (construct_grid 3 fun r c => if r = c then 1 else 0).Reduced ∧ ∀ r c, r < 3 → c < 3 →
      (construct_grid 3 fun r c => if r = c then 1 else 0).value 0 0 3 3 r c =
        decide ((if r = c then (1 : Int) else 0) ≠ 0) :=
  construct_grid_shows (by decide) (binary_bits 3 fun r c => r = c)

/-- The union of the trees of two grids is the tree of the union. -/
theorem intersect_construct_grid (hn : 0 < n) (h₁ : Binary n g₁) (h₂ : Binary n g₂) :
    intersect (construct_grid n g₁) (construct_grid n g₂) = construct_grid n (union g₁ g₂) :=
  intersect_construct h₁ h₂ (part_of_pos hn)

theorem intersect_construct_grid_four :
    intersect (construct_grid 4 fun r _ => if r < 2 then 1 else 0)
        (construct_grid 4 fun _ c => if c < 1 then 1 else 0) =
      construct_grid 4 (union (fun r _ => if r < 2 then 1 else 0)
        fun _ c => if c < 1 then 1 else 0) :=
  intersect_construct_grid (by decide) (binary_bits 4 fun r _ => r < 2)
    (binary_bits 4 fun _ c => c < 1)

end Intersect

end QuadTree

end CppPerf.Trees
