import CppPerf.Semantics.PopStack
import CppPerf.Text.Parsing
import Mathlib.Algebra.Order.Ring.Int
import Mathlib.Data.List.GetD
import Mathlib.Tactic.Ring

/-! `MonotoneStack` of `stack.cpp`. A position is stored as an `int`. -/
namespace CppPerf.Sequences.MonotoneStack

open PopStack Text

/-- The positions found so far, and the stack with its back first. -/
structure Scan where
  pos : List Int
  plp : List Nat
  deriving Repr, DecidableEq

def record (pos : List Int) (i : Nat) : Option Nat → List Int
  | some p => pos.set i p
  | none => pos

def Scan.step (comp : Int → Int → Bool) (arr : List Int) (s : Scan) (i : Nat) : Scan :=
  let plp := s.plp.dropWhile fun p => comp (arr.getD i 0) (arr.getD p 0)
  { pos := record s.pos i plp.head?, plp := i :: plp }

/-- From the left, after the first element. -/
def computePrevLess (comp : Int → Int → Bool) (arr : List Int) : List Int :=
  ((List.range' 1 (arr.length - 1)).foldl (Scan.step comp arr)
    ⟨List.replicate arr.length (-1), [0]⟩).pos

/-- From the right. -/
def computeNextLess (comp : Int → Int → Bool) (arr : List Int) : List Int :=
  ((List.range arr.length).reverse.foldl (Scan.step comp arr)
    ⟨List.replicate arr.length arr.length, []⟩).pos

def less (x y : Int) : Bool := x < y

def less_equal (x y : Int) : Bool := x ≤ y

/-- `none` is an overflow of `int`. -/
def product (x y : Int) : Option Int := if fitsInt (x * y) then some (x * y) else none

/-- The largest area with one of the bars as the height. -/
def best_area (heights : List Int) (max_area : Int) : Option Int :=
  let prev_less_pos := computePrevLess less_equal heights
  let next_less_pos := computeNextLess less_equal heights
  (List.range heights.length).foldlM (fun max_area i => do
    let area ← product (heights.getD i 0)
      (next_less_pos.getD i 0 - prev_less_pos.getD i 0 - 1)
    return max max_area area) max_area

def largestRectangleArea (heights : List Int) : Option Int := best_area heights 0

def MOD : Int := 1000000007

/-- The product is computed without sign, modulo `2 ^ 64`, and so is its sum with `sum`. -/
def sumSubarrayMins (A : List Int) : Int :=
  let prev_less_pos := computePrevLess less A
  let next_less_pos := computeNextLess less_equal A
  (List.range A.length).foldl (fun sum i =>
    (sum + (i - prev_less_pos.getD i 0) * (next_less_pos.getD i 0 - i) * A.getD i 0).bmod
      (2 ^ 64) |>.tmod MOD) 0

/-- The number of ones that end in a cell, from above. -/
def height (matrix : List (List Char)) (i j : Nat) : Int :=
  (List.range (i + 1)).foldl
    (fun h i => if (matrix.getD i []).getD j '0' = '1' then h + 1 else 0) 0

def maximalRectangle (matrix : List (List Char)) : Option Int :=
  let rows := matrix.length
  let cols := (matrix.headD []).length
  if rows = 0 ∨ cols = 0 then some 0
  else (List.range rows).foldlM (fun max_area r =>
    best_area ((List.range cols).map (height matrix r)) max_area) 0

section Positions

variable {comp : Int → Int → Bool} {arr pos : List Int} {i n : Nat} {order history : List Nat}

/-- An element covers another one. -/
def cover (comp : Int → Int → Bool) (arr : List Int) (i p : Nat) : Bool :=
  comp (arr.getD i 0) (arr.getD p 0)

/-- The nearest position among some, the nearest one first, that is not covered. -/
def nearest (comp : Int → Int → Bool) (arr : List Int) (i : Nat) (history : List Nat) :
    Option Nat :=
  history.find? fun p => !cover comp arr i p

def Transitive (comp : Int → Int → Bool) : Prop :=
  ∀ x y z, comp x y = true → comp y z = true → comp x z = true

theorem less_transitive : Transitive less := by
  intro x y z hxy hyz
  exact decide_eq_true ((of_decide_eq_true hxy).trans (of_decide_eq_true hyz))

theorem less_equal_transitive : Transitive less_equal := by
  intro x y z hxy hyz
  exact decide_eq_true ((of_decide_eq_true hxy).trans (of_decide_eq_true hyz))

@[simp] theorem length_record (pos : List Int) (i : Nat) (found : Option Nat) :
    (record pos i found).length = pos.length := by
  cases found with
  | none => rfl
  | some p => exact List.length_set

theorem record_getD_of_ne {j : Nat} (hNe : i ≠ j) (found : Option Nat) :
    (record pos j found).getD i 0 = pos.getD i 0 := by
  cases found with
  | none => rfl
  | some p => rw [record, List.getD_eq_getElem?_getD, List.getElem?_set_ne hNe.symm,
      List.getD_eq_getElem?_getD]

theorem record_getD_self (hi : i < pos.length) (found : Option Nat) :
    (record pos i found).getD i 0 = (found.map Nat.cast).getD (pos.getD i 0) := by
  cases found with
  | none => rfl
  | some p => rw [record, List.getD_eq_getElem?_getD, List.getElem?_set_self hi]; rfl

theorem step_eq (hTrans : Transitive comp) :
    Scan.step comp arr ⟨pos, stack (cover comp arr) history⟩ i =
      ⟨record pos i (nearest comp arr i history), stack (cover comp arr) (i :: history)⟩ := by
  have hCover : ∀ x y z, cover comp arr x y = true → cover comp arr y z = true →
      cover comp arr x z = true := fun x y z => hTrans _ _ _
  have hHead := head?_dropWhile_stack hCover i history
  rw [nearest, ← hHead]
  rfl

theorem scan_getD_of_notMem (hTrans : Transitive comp) (hi : i ∉ order) :
    (order.foldl (Scan.step comp arr) ⟨pos, stack (cover comp arr) history⟩).pos.getD i 0 =
      pos.getD i 0 := by
  induction order generalizing pos history with
  | nil => rfl
  | cons j order ih =>
      rw [List.mem_cons, not_or] at hi
      rw [List.foldl_cons, step_eq hTrans, ih hi.2, record_getD_of_ne hi.1]

/-- The result at a position that is scanned once. -/
theorem scan_getD (hTrans : Transitive comp) (a b : List Nat) (hi : i < pos.length) (ha : i ∉ a)
    (hb : i ∉ b) :
    ((a ++ i :: b).foldl (Scan.step comp arr) ⟨pos, stack (cover comp arr) history⟩).pos.getD i 0 =
      ((nearest comp arr i (a.reverse ++ history)).map Nat.cast).getD (pos.getD i 0) := by
  induction a generalizing pos history with
  | nil =>
      rw [List.nil_append, List.foldl_cons, step_eq hTrans, scan_getD_of_notMem hTrans hb,
        record_getD_self hi]
      rfl
  | cons j a ih =>
      rw [List.mem_cons, not_or] at ha
      rw [List.cons_append, List.foldl_cons, step_eq hTrans, ih (by rwa [length_record]) ha.2,
        record_getD_of_ne ha.1, List.reverse_cons, List.append_assoc]
      rfl

theorem range'_split {s k : Nat} (hs : s ≤ i) (hi : i < s + k) :
    List.range' s k = List.range' s (i - s) ++ i :: List.range' (i + 1) (s + k - (i + 1)) := by
  obtain ⟨d, rfl⟩ := Nat.exists_eq_add_of_le hs
  obtain ⟨e, rfl⟩ : ∃ e, k = d + (e + 1) := ⟨k - d - 1, by omega⟩
  rw [Nat.add_sub_cancel_left, ← List.range'_append_1, List.range'_succ]
  congr 3
  omega

theorem prev_getD (hTrans : Transitive comp) (hi : i < arr.length) :
    (computePrevLess comp arr).getD i 0 =
      ((nearest comp arr i (List.range i).reverse).map Nat.cast).getD (-1) := by
  have hStack : [0] = stack (cover comp arr) [0] := rfl
  have hStart : (List.replicate arr.length (-1 : Int)).getD i 0 = -1 := by
    rw [List.getD_eq_getElem _ _ (by simpa using hi), List.getElem_replicate]
  rw [computePrevLess, hStack]
  rcases Nat.eq_zero_or_pos i with rfl | hPos
  · rw [scan_getD_of_notMem hTrans (by simp), hStart]
    rfl
  · have hHistory : (List.range' 1 (i - 1)).reverse ++ [0] = (List.range i).reverse := by
      obtain ⟨k, rfl⟩ : ∃ k, i = k + 1 := ⟨i - 1, by omega⟩
      rw [List.range_eq_range', List.range'_succ, List.reverse_cons]
      rfl
    rw [range'_split hPos (by omega), scan_getD hTrans _ _ (by simpa using hi)
      (by simp; omega) (by simp), hHistory, hStart]

theorem next_getD (hTrans : Transitive comp) (hi : i < arr.length) :
    (computeNextLess comp arr).getD i 0 =
      ((nearest comp arr i (List.range' (i + 1) (arr.length - (i + 1)))).map Nat.cast).getD
        (arr.length : Int) := by
  have hStack : ([] : List Nat) = stack (cover comp arr) [] := rfl
  have hStart : (List.replicate arr.length (arr.length : Int)).getD i 0 = arr.length := by
    rw [List.getD_eq_getElem _ _ (by simpa using hi), List.getElem_replicate]
  rw [computeNextLess, hStack, List.range_eq_range', range'_split (Nat.zero_le i) (by omega),
    List.reverse_append, List.reverse_cons, List.append_assoc, List.singleton_append,
    scan_getD hTrans _ _ (by simpa using hi) (by simp) (by simp), hStart, List.reverse_reverse,
    List.append_nil, Nat.zero_add]

theorem nearest_range (comp : Int → Int → Bool) (arr : List Int) (i k : Nat) :
    ∃ lo : Nat,
      ((nearest comp arr i (List.range k).reverse).map Nat.cast).getD (-1) = (lo : Int) - 1 ∧
      lo ≤ k ∧ (∀ j, lo ≤ j → j < k → cover comp arr i j = true) ∧
      ∀ j, lo = j + 1 → cover comp arr i j = false := by
  induction k with
  | zero => exact ⟨0, rfl, le_rfl, fun j _ hj => absurd hj (Nat.not_lt_zero j), by simp⟩
  | succ k ih =>
      rw [nearest, List.range_succ, List.reverse_concat, List.find?_cons]
      cases hCover : cover comp arr i k with
      | false =>
          refine ⟨k + 1, by simp, le_rfl, fun j hlo hj => absurd hj (by omega), ?_⟩
          intro j hj
          rwa [← Nat.succ.inj hj]
      | true =>
          obtain ⟨lo, hFound, hLe, hBetween, hStop⟩ := ih
          refine ⟨lo, hFound, by omega, fun j hlo hj => ?_, hStop⟩
          rcases Nat.lt_succ_iff_lt_or_eq.mp hj with hOld | rfl
          · exact hBetween j hlo hOld
          · exact hCover

theorem nearest_range' (comp : Int → Int → Bool) (arr : List Int) (i s k : Nat) :
    ∃ hi : Nat, ((nearest comp arr i (List.range' s k)).map Nat.cast).getD ((s + k : Nat) : Int) =
        (hi : Int) ∧ s ≤ hi ∧ hi ≤ s + k ∧
      (∀ j, s ≤ j → j < hi → cover comp arr i j = true) ∧
      (hi < s + k → cover comp arr i hi = false) := by
  induction k generalizing s with
  | zero =>
      exact ⟨s, rfl, le_rfl, le_rfl, fun j hs hj => absurd hj hs.not_gt,
        fun h => absurd h (lt_irrefl _)⟩
  | succ k ih =>
      rw [nearest, List.range'_succ, List.find?_cons]
      cases hCover : cover comp arr i s with
      | false =>
          exact ⟨s, rfl, le_rfl, by omega, fun j hs hj => absurd hj hs.not_gt, fun _ => hCover⟩
      | true =>
          obtain ⟨hi, hFound, hs, hHi, hBetween, hStop⟩ := ih (s + 1)
          rw [show s + 1 + k = s + (k + 1) by omega] at hFound hHi hStop
          refine ⟨hi, hFound, by omega, hHi, fun j hj hjHi => ?_, hStop⟩
          rcases Nat.eq_or_lt_of_le hj with rfl | hLater
          · exact hCover
          · exact hBetween j hLater hjHi

/-- Behind the nearest position on the left that is not covered. -/
theorem prev_spec (hTrans : Transitive comp) (hi : i < arr.length) :
    ∃ lo : Nat, (computePrevLess comp arr).getD i 0 = (lo : Int) - 1 ∧ lo ≤ i ∧
      (∀ j, lo ≤ j → j < i → comp (arr.getD i 0) (arr.getD j 0) = true) ∧
      ∀ j, lo = j + 1 → comp (arr.getD i 0) (arr.getD j 0) = false := by
  rw [prev_getD hTrans hi]
  exact nearest_range comp arr i i

/-- The nearest position on the right that is not covered. -/
theorem next_spec (hTrans : Transitive comp) (hi : i < arr.length) :
    ∃ hi : Nat, (computeNextLess comp arr).getD i 0 = (hi : Int) ∧ i < hi ∧ hi ≤ arr.length ∧
      (∀ j, i < j → j < hi → comp (arr.getD i 0) (arr.getD j 0) = true) ∧
      (hi < arr.length → comp (arr.getD i 0) (arr.getD hi 0) = false) := by
  have hRange := nearest_range' comp arr i (i + 1) (arr.length - (i + 1))
  rw [show i + 1 + (arr.length - (i + 1)) = arr.length by omega] at hRange
  rw [next_getD hTrans hi]
  exact hRange

end Positions

section Rectangles

variable {heights : List Int} {i : Nat} {a m : Int}

/-- The area of a rectangle below the bars. -/
def Rectangle (heights : List Int) (a : Int) : Prop :=
  ∃ (l w : Nat) (h : Int), l + w ≤ heights.length ∧ 0 ≤ h ∧
    (∀ j, l ≤ j → j < l + w → h ≤ heights.getD j 0) ∧ a = h * w

/-- A bar and the bars next to it that are not lower. -/
theorem bar_spec (hi : i < heights.length) :
    ∃ lo hi : Nat, (computeNextLess less_equal heights).getD i 0 -
        (computePrevLess less_equal heights).getD i 0 - 1 = (hi : Int) - lo ∧
      lo ≤ i ∧ i < hi ∧ hi ≤ heights.length ∧
      (∀ j, lo ≤ j → j < hi → heights.getD i 0 ≤ heights.getD j 0) ∧
      (∀ j, lo = j + 1 → heights.getD j 0 < heights.getD i 0) ∧
      (hi < heights.length → heights.getD hi 0 < heights.getD i 0) := by
  obtain ⟨lo, hPrev, hLo, hLeft, hBefore⟩ := prev_spec less_equal_transitive hi
  obtain ⟨hi', hNext, hHi, hBound, hRight, hBehind⟩ := next_spec less_equal_transitive hi
  refine ⟨lo, hi', by rw [hPrev, hNext]; omega, hLo, hHi, hBound, fun j hj hjHi => ?_,
    fun j hj => not_le.mp (of_decide_eq_false (hBefore j hj)),
    fun hEnd => not_le.mp (of_decide_eq_false (hBehind hEnd))⟩
  rcases lt_trichotomy j i with hLt | rfl | hGt
  · exact of_decide_eq_true (hLeft j hj hLt)
  · exact le_rfl
  · exact of_decide_eq_true (hRight j hGt hjHi)

/-- A rectangle is not larger than the one of its first lowest bar. -/
theorem rectangle_le (hRect : Rectangle heights a) (ha : 0 < a) :
    ∃ i, i < heights.length ∧ a ≤ heights.getD i 0 *
      ((computeNextLess less_equal heights).getD i 0 -
        (computePrevLess less_equal heights).getD i 0 - 1) := by
  obtain ⟨l, w, h, hBound, hh, hBars, rfl⟩ := hRect
  have hWidth : w ≠ 0 := by
    rintro rfl
    simp at ha
  obtain ⟨i, hMin⟩ := exists_firstMin (fun j => heights.getD j 0) (show l ≤ l + w - 1 by omega)
  have hLeft := hMin.left
  have hRight := hMin.right
  have hi : i < heights.length := by omega
  obtain ⟨lo, hi', hExtent, hLo, hHi, hEnd, -, hBefore, hBehind⟩ := bar_spec hi
  have hStart : lo ≤ l := by
    by_contra hl
    obtain ⟨j, rfl⟩ : ∃ j, lo = j + 1 := ⟨lo - 1, by omega⟩
    exact absurd (hMin.le (show l ≤ j by omega) (by omega)) (hBefore j rfl).not_ge
  have hStop : l + w ≤ hi' := by
    by_contra hr
    exact absurd (hMin.le (show l ≤ hi' by omega) (by omega)) (hBehind (by omega)).not_ge
  refine ⟨i, hi, ?_⟩
  rw [hExtent]
  exact mul_le_mul (hBars i hLeft (by omega)) (by omega) (by omega)
    (hh.trans (hBars i hLeft (by omega)))

/-- The bars, and any of them times their number, are values of `int`. -/
def Bounded (heights : List Int) : Prop :=
  ∀ i < heights.length, 0 ≤ heights.getD i 0 ∧ heights.getD i 0 * heights.length < 2 ^ 31

/-- The area of a bar is computed without overflow. -/
theorem product_bar (hBounded : Bounded heights) (hi : i < heights.length) :
    ∃ a, product (heights.getD i 0) ((computeNextLess less_equal heights).getD i 0 -
        (computePrevLess less_equal heights).getD i 0 - 1) = some a ∧ Rectangle heights a ∧
      a = heights.getD i 0 * ((computeNextLess less_equal heights).getD i 0 -
        (computePrevLess less_equal heights).getD i 0 - 1) := by
  obtain ⟨hPos, hSmall⟩ := hBounded i hi
  obtain ⟨lo, hi', hExtent, hLo, hHi, hEnd, hBars, -⟩ := bar_spec hi
  have hWidth : (hi' : Int) - lo = ((hi' - lo : Nat) : Int) := by omega
  have hLe : heights.getD i 0 * ((hi' - lo : Nat) : Int) ≤ heights.getD i 0 * heights.length :=
    mul_le_mul_of_nonneg_left (by omega) hPos
  have hArea : 0 ≤ heights.getD i 0 * ((hi' - lo : Nat) : Int) := mul_nonneg hPos (by omega)
  refine ⟨_, ?_, ?_, rfl⟩
  · rw [product, if_pos]
    rw [hExtent, hWidth, fitsInt, Bool.and_eq_true, decide_eq_true_eq, decide_eq_true_eq]
    omega
  · rw [hExtent, hWidth]
    exact ⟨lo, hi' - lo, heights.getD i 0, by omega, hPos,
      fun j hj hjHi => hBars j hj (by omega), rfl⟩

/-- The maximum of some numbers that may be undefined. -/
theorem foldlM_max (f : Nat → Option Int) (order : List Nat) (m : Int)
    (hf : ∀ i ∈ order, (f i).isSome = true) :
    ∃ A, order.foldlM (fun m i => do
        let a ← f i
        return max m a) m = some A ∧
      m ≤ A ∧ (∀ i ∈ order, ∀ a ∈ f i, a ≤ A) ∧ (A = m ∨ ∃ i ∈ order, f i = some A) := by
  induction order generalizing m with
  | nil => exact ⟨m, rfl, le_rfl, by simp, Or.inl rfl⟩
  | cons i order ih =>
      obtain ⟨a, ha⟩ := Option.isSome_iff_exists.mp (hf i List.mem_cons_self)
      obtain ⟨A, hFold, hLe, hAll, hSome⟩ := ih (max m a) fun j hj =>
        hf j (List.mem_cons_of_mem _ hj)
      refine ⟨A, ?_, (le_max_left _ _).trans hLe, fun j hj b hb => ?_, ?_⟩
      · rw [List.foldlM_cons, ha]
        exact hFold
      · rcases List.mem_cons.mp hj with rfl | hj
        · rw [Option.mem_def.mp hb, Option.some.injEq] at ha
          rw [ha]
          exact (le_max_right _ _).trans hLe
        · exact hAll j hj b hb
      · rcases hSome with hStart | ⟨j, hj, hArea⟩
        · rcases max_choice m a with hOld | hNew
          · exact Or.inl (hStart.trans hOld)
          · exact Or.inr ⟨i, List.mem_cons_self, by rw [ha, hStart, hNew]⟩
        · exact Or.inr ⟨j, List.mem_cons_of_mem _ hj, hArea⟩

/-- The largest rectangle, or what was found before. -/
theorem best_area_spec (hBounded : Bounded heights) (hm : 0 ≤ m) :
    ∃ A, best_area heights m = some A ∧ IsGreatest {a | a = m ∨ Rectangle heights a} A := by
  obtain ⟨A, hFold, hLe, hAll, hSome⟩ := foldlM_max (fun i => product (heights.getD i 0)
    ((computeNextLess less_equal heights).getD i 0 -
      (computePrevLess less_equal heights).getD i 0 - 1)) (List.range heights.length) m (by
    intro i hi
    obtain ⟨a, ha, -⟩ := product_bar hBounded (List.mem_range.mp hi)
    exact Option.isSome_iff_exists.mpr ⟨a, ha⟩)
  refine ⟨A, hFold, ?_, ?_⟩
  · rcases hSome with hStart | ⟨i, hi, hArea⟩
    · exact Or.inl hStart
    · obtain ⟨a, ha, hRect, -⟩ := product_bar hBounded (List.mem_range.mp hi)
      obtain rfl := Option.some.inj (ha.symm.trans hArea)
      exact Or.inr hRect
  · rintro a (rfl | hRect)
    · exact hLe
    · rcases le_or_gt a 0 with hZero | hPos
      · exact hZero.trans (hm.trans hLe)
      · obtain ⟨i, hi, hArea⟩ := rectangle_le hRect hPos
        obtain ⟨b, hb, -, hBar⟩ := product_bar hBounded hi
        rw [← hBar] at hArea
        exact hArea.trans (hAll i (List.mem_range.mpr hi) b hb)

end Rectangles

section Matrix

variable {matrix : List (List Char)} {a m : Int} {r j rows cols : Nat}

def one (matrix : List (List Char)) (i j : Nat) : Prop := (matrix.getD i []).getD j '0' = '1'

/-- The area of a rectangle of ones. -/
def Ones (matrix : List (List Char)) (cols : Nat) (a : Int) : Prop :=
  ∃ top left h w : Nat, top + h ≤ matrix.length ∧ left + w ≤ cols ∧
    (∀ i, top ≤ i → i < top + h → ∀ j, left ≤ j → j < left + w → one matrix i j) ∧
    a = (h : Int) * w

/-- The loop over the first rows. -/
def height_of (matrix : List (List Char)) (j k : Nat) : Int :=
  (List.range k).foldl
    (fun h i => if (matrix.getD i []).getD j '0' = '1' then h + 1 else 0) 0

theorem height_of_succ (matrix : List (List Char)) (j k : Nat) : height_of matrix j (k + 1) =
    if (matrix.getD k []).getD j '0' = '1' then height_of matrix j k + 1 else 0 := by
  rw [height_of, List.range_succ, List.foldl_concat, height_of]

theorem height_of_bounds (matrix : List (List Char)) (j k : Nat) :
    0 ≤ height_of matrix j k ∧ height_of matrix j k ≤ k := by
  induction k with
  | zero => exact ⟨le_rfl, le_rfl⟩
  | succ k ih =>
      rw [height_of_succ]
      split_ifs <;> omega

/-- So many ones end in a cell. -/
theorem le_height_of_iff (j k h : Nat) : (h : Int) ≤ height_of matrix j k ↔
    h ≤ k ∧ ∀ i, k ≤ i + h → i < k → one matrix i j := by
  induction k generalizing h with
  | zero =>
      constructor
      · intro hLe
        have hZero : (h : Int) ≤ 0 := hLe
        exact ⟨by omega, fun i _ hi => absurd hi (Nat.not_lt_zero i)⟩
      · rintro ⟨hLe, -⟩
        rw [Nat.le_zero.mp hLe]
        exact le_rfl
  | succ k ih =>
      have hPos := (height_of_bounds matrix j k).1
      rw [height_of_succ]
      cases h with
      | zero =>
          refine iff_of_true ?_ ⟨Nat.zero_le _, fun i hi hlt => absurd hi (by omega)⟩
          split_ifs <;> simp
          omega
      | succ h =>
          split_ifs with hOne
          · have hLe : ((h + 1 : Nat) : Int) ≤ height_of matrix j k + 1 ↔
                (h : Int) ≤ height_of matrix j k := by omega
            rw [hLe, ih]
            constructor
            · rintro ⟨hk, hAll⟩
              refine ⟨by omega, fun i hi hlt => ?_⟩
              rcases Nat.lt_succ_iff_lt_or_eq.mp hlt with hOld | rfl
              · exact hAll i (by omega) hOld
              · exact hOne
            · rintro ⟨hk, hAll⟩
              exact ⟨by omega, fun i hi hlt => hAll i (by omega) (by omega)⟩
          · refine iff_of_false (by omega) ?_
            rintro ⟨-, hAll⟩
            exact hOne (hAll k (by omega) (by omega))

theorem row_getD (matrix : List (List Char)) (r : Nat) (hj : j < cols) :
    ((List.range cols).map (height matrix r)).getD j 0 = height_of matrix j (r + 1) := by
  rw [List.getD_eq_getElem _ _ (by simpa using hj), List.getElem_map, List.getElem_range]
  rfl

theorem ones_zero (matrix : List (List Char)) (cols : Nat) : Ones matrix cols 0 :=
  ⟨0, 0, 0, 0, Nat.zero_le _, Nat.zero_le _, fun i hi hlt => absurd hlt (by omega), rfl⟩

/-- The rectangles of ones are the rectangles below the bars of a row. -/
theorem ones_iff : Ones matrix cols a ↔ a = 0 ∨ ∃ r < matrix.length,
    Rectangle ((List.range cols).map (height matrix r)) a := by
  constructor
  · rintro ⟨top, left, h, w, hRows, hCols, hOnes, rfl⟩
    rcases Nat.eq_zero_or_pos h with rfl | hPos
    · exact Or.inl (by simp)
    · refine Or.inr ⟨top + h - 1, by omega, left, w, h, by simpa using hCols, by omega,
        fun j hj hlt => ?_, rfl⟩
      rw [row_getD matrix _ (show j < cols by omega), le_height_of_iff]
      exact ⟨by omega, fun i hi hBelow => hOnes i (by omega) (by omega) j hj hlt⟩
  · rintro (rfl | ⟨r, hr, l, w, h, hBound, hh, hBars, rfl⟩)
    · exact ones_zero matrix cols
    · obtain ⟨h, rfl⟩ := Int.eq_ofNat_of_zero_le hh
      rw [List.length_map, List.length_range] at hBound
      have hCells : ∀ j, l ≤ j → j < l + w →
          h ≤ r + 1 ∧ ∀ i, r + 1 ≤ i + h → i < r + 1 → one matrix i j := by
        intro j hj hlt
        rw [← le_height_of_iff, ← row_getD matrix r (show j < cols by omega)]
        exact hBars j hj hlt
      rcases Nat.eq_zero_or_pos w with rfl | hPos
      · rw [Nat.cast_zero, mul_zero]
        exact ones_zero matrix cols
      · have hDeep := (hCells l le_rfl (by omega)).1
        exact ⟨r + 1 - h, l, h, w, by omega, hBound,
          fun i hi hlt j hj hjlt => (hCells j hj hjlt).2 i (by omega) (by omega), rfl⟩

theorem bounded_row (hSmall : matrix.length * cols < 2 ^ 31) (hr : r < matrix.length) :
    Bounded ((List.range cols).map (height matrix r)) := by
  intro j hj
  rw [List.length_map, List.length_range] at hj ⊢
  rw [row_getD matrix r hj]
  obtain ⟨hPos, hLe⟩ := height_of_bounds matrix j (r + 1)
  refine ⟨hPos, lt_of_le_of_lt (mul_le_mul_of_nonneg_right
    (show height_of matrix j (r + 1) ≤ (matrix.length : Int) by omega) (by omega)) ?_⟩
  exact_mod_cast hSmall

/-- The rows one after the other. -/
theorem rows_greatest (hSmall : matrix.length * cols < 2 ^ 31) (k : Nat)
    (hk : k ≤ matrix.length) :
    ∃ A, (List.range k).foldlM (fun max_area r =>
        best_area ((List.range cols).map (height matrix r)) max_area) 0 = some A ∧ 0 ≤ A ∧
      IsGreatest {a | a = 0 ∨ ∃ r < k, Rectangle ((List.range cols).map (height matrix r)) a}
        A := by
  induction k with
  | zero =>
      refine ⟨0, rfl, le_rfl, Or.inl rfl, ?_⟩
      rintro a (rfl | ⟨r, hr, -⟩)
      · exact le_rfl
      · exact absurd hr (Nat.not_lt_zero r)
  | succ k ih =>
      obtain ⟨m, hFold, hm, hMem, hUpper⟩ := ih (by omega)
      obtain ⟨A, hArea, hBest⟩ := best_area_spec (bounded_row hSmall (show k < _ by omega)) hm
      have hLe : m ≤ A := hBest.2 (Or.inl rfl)
      refine ⟨A, ?_, hm.trans hLe, ?_, ?_⟩
      · rw [List.range_succ, List.foldlM_append, hFold, Option.bind_eq_bind, Option.bind_some,
          List.foldlM_cons, hArea]
        rfl
      · rcases hBest.1 with rfl | hRect
        · exact hMem.imp_right fun ⟨r, hr, h⟩ => ⟨r, by omega, h⟩
        · exact Or.inr ⟨k, by omega, hRect⟩
      · rintro a (rfl | ⟨r, hr, hRect⟩)
        · exact hm.trans hLe
        · rcases Nat.lt_succ_iff_lt_or_eq.mp hr with hOld | rfl
          · exact (hUpper (Or.inr ⟨r, hOld, hRect⟩)).trans hLe
          · exact hBest.2 (Or.inr hRect)

theorem ones_of_empty (h : matrix.length = 0 ∨ cols = 0) :
    IsGreatest {a | Ones matrix cols a} 0 := by
  refine ⟨ones_zero matrix cols, ?_⟩
  rintro a ⟨top, left, height, width, hRows, hCols, -, rfl⟩
  rcases h with hNone | hNone
  · rw [show height = 0 by omega, Nat.cast_zero, zero_mul]
  · rw [show width = 0 by omega, Nat.cast_zero, mul_zero]

/-- The area that is returned is the largest one of a rectangle of ones. -/
theorem maximalRectangle_greatest (hCols : ∀ row ∈ matrix, row.length = cols)
    (hSmall : matrix.length * cols < 2 ^ 31) :
    ∃ A, maximalRectangle matrix = some A ∧ IsGreatest {a | Ones matrix cols a} A := by
  rcases Nat.eq_zero_or_pos matrix.length with hNone | hSome
  · refine ⟨0, ?_, ones_of_empty (Or.inl hNone)⟩
    rw [maximalRectangle, if_pos (Or.inl hNone)]
  · have hFirst : (matrix.headD []).length = cols := by
      cases matrix with
      | nil => exact absurd hSome (Nat.lt_irrefl 0)
      | cons row rows => exact hCols row List.mem_cons_self
    rw [maximalRectangle, hFirst]
    rcases Nat.eq_zero_or_pos cols with hZero | hWide
    · exact ⟨0, if_pos (Or.inr hZero), ones_of_empty (Or.inr hZero)⟩
    · obtain ⟨A, hFold, -, hBest⟩ := rows_greatest hSmall matrix.length le_rfl
      refine ⟨A, (if_neg (by omega)).trans hFold, ?_⟩
      simpa only [ones_iff] using hBest

theorem maximalRectangle_greatest_two :
    ∃ A, maximalRectangle [['1', '0', '1'], ['1', '1', '1']] = some A ∧
      IsGreatest {a | Ones [['1', '0', '1'], ['1', '1', '1']] 3 a} A :=
  maximalRectangle_greatest (by decide) (by decide)

end Matrix

section SubarrayMins

variable {A : List Int} {i : Nat}

/-- The sum of the minimum of every subarray. -/
def sum_of_mins (A : List Int) : Int :=
  ∑ l ∈ Finset.range A.length, ∑ r ∈ Finset.Ico l A.length,
    ((A.take (r + 1)).drop l).min?.getD 0

theorem min?_of_firstMin {l r : Nat} (hr : r < A.length)
    (h : FirstMin (fun j => A.getD j 0) l r i) :
    ((A.take (r + 1)).drop l).min?.getD 0 = A.getD i 0 := by
  have hLeft := h.left
  have hRight := h.right
  have hMin : ((A.take (r + 1)).drop l).min? = some (A.getD i 0) := by
    rw [List.min?_eq_some_iff]
    constructor
    · rw [List.mem_iff_getElem]
      refine ⟨i - l, by simp; omega, ?_⟩
      rw [List.getElem_drop, List.getElem_take, List.getD_eq_getElem _ _ (by omega)]
      congr 1
      omega
    · intro x hx
      obtain ⟨k, hk, rfl⟩ := List.mem_iff_getElem.mp hx
      rw [List.length_drop, List.length_take] at hk
      have hLe := h.le (show l ≤ l + k by omega) (by omega)
      rw [List.getD_eq_getElem _ _ (show l + k < A.length by omega)] at hLe
      rw [List.getElem_drop, List.getElem_take]
      exact hLe
  rw [hMin, Option.getD_some]

/-- An element is the first minimum from behind the last one that is not greater to the first one
that is less. -/
theorem extent_spec (hi : i < A.length) : ∃ lo hi : Nat,
    (computePrevLess less A).getD i 0 = (lo : Int) - 1 ∧
      (computeNextLess less_equal A).getD i 0 = (hi : Int) ∧
      Extent (fun j => A.getD j 0) A.length lo i hi := by
  obtain ⟨lo, hPrev, hLo, hLeft, hBefore⟩ := prev_spec less_transitive hi
  obtain ⟨hi', hNext, hHi, hBound, hRight, hBehind⟩ := next_spec less_equal_transitive hi
  refine ⟨lo, hi', hPrev, hNext, hLo, hHi, hBound,
    fun j hj hlt => of_decide_eq_true (hLeft j hj hlt),
    fun j hj hlt => of_decide_eq_true (hRight j hj hlt), fun j hj => ?_, fun hEnd => ?_⟩
  · exact not_lt.mp (of_decide_eq_false (hBefore j hj))
  · exact not_le.mp (of_decide_eq_false (hBehind hEnd))

/-- What one position adds. -/
def term (A : List Int) (i : Nat) : Int :=
  (i - (computePrevLess less A).getD i 0) * ((computeNextLess less_equal A).getD i 0 - i) *
    A.getD i 0

theorem sum_of_mins_eq (A : List Int) :
    sum_of_mins A = ∑ i ∈ Finset.range A.length, term A i := by
  have hSpec : ∀ i, ∃ lo hi : Nat, i < A.length →
      (computePrevLess less A).getD i 0 = (lo : Int) - 1 ∧
      (computeNextLess less_equal A).getD i 0 = (hi : Int) ∧
      Extent (fun j => A.getD j 0) A.length lo i hi := by
    intro i
    by_cases hi : i < A.length
    · obtain ⟨lo, hi', hExtent⟩ := extent_spec hi
      exact ⟨lo, hi', fun _ => hExtent⟩
    · exact ⟨0, 0, fun h => absurd h hi⟩
  choose lo hi hExtent using hSpec
  rw [sum_of_mins, sum_intervals (g := fun i => A.getD i 0) (fun l r i => min?_of_firstMin)
    fun i hi => (hExtent i hi).2.2]
  refine Finset.sum_congr rfl fun i hMem => ?_
  obtain ⟨hPrev, hNext, hBounds⟩ := hExtent i (Finset.mem_range.mp hMem)
  have hStart := hBounds.start
  have hStop := hBounds.stop
  rw [term, hPrev, hNext, nsmul_eq_mul, Nat.cast_mul, Nat.cast_sub (by omega),
    Nat.cast_sub (by omega)]
  push_cast
  ring

theorem term_bounds (hLength : A.length ≤ 30000) (hValues : ∀ x ∈ A, 0 ≤ x ∧ x < 2 ^ 31)
    (hi : i < A.length) : 0 ≤ term A i ∧ term A i ≤ 30000 * 30000 * 2 ^ 31 := by
  obtain ⟨lo, hi', hPrev, hNext, hBounds⟩ := extent_spec hi
  have hStart := hBounds.start
  have hStop := hBounds.stop
  have hBound := hBounds.bound
  have hValue : 0 ≤ A.getD i 0 ∧ A.getD i 0 < 2 ^ 31 := by
    rw [List.getD_eq_getElem _ _ hi]
    exact hValues _ (List.getElem_mem hi)
  rw [term, hPrev, hNext]
  refine ⟨mul_nonneg (mul_nonneg (by omega) (by omega)) hValue.1, ?_⟩
  exact mul_le_mul (mul_le_mul (by omega) (by omega) (by omega) (by omega)) hValue.2.le hValue.1
    (by decide)

/-- The sum that is returned, for arrays as long as the code allows. -/
theorem sumSubarrayMins_eq (hLength : A.length ≤ 30000)
    (hValues : ∀ x ∈ A, 0 ≤ x ∧ x < 2 ^ 31) : sumSubarrayMins A = sum_of_mins A % MOD := by
  have hLoop : ∀ k ≤ A.length, (List.range k).foldl (fun sum i =>
      ((sum + term A i).bmod (2 ^ 64)).tmod MOD) 0 = (∑ i ∈ Finset.range k, term A i) % MOD := by
    intro k hk
    induction k with
    | zero => rfl
    | succ k ih =>
        obtain ⟨hLow, hHigh⟩ := term_bounds hLength hValues (show k < A.length by omega)
        have hMod : (0 : Int) < MOD := by decide
        have hSum := Int.emod_nonneg (∑ i ∈ Finset.range k, term A i) hMod.ne'
        have hSmall := Int.emod_lt_of_pos (∑ i ∈ Finset.range k, term A i) hMod
        have hMod' : MOD = 1000000007 := rfl
        rw [List.range_succ, List.foldl_concat, ih (by omega), Finset.sum_range_succ,
          Int.bmod_eq_of_le (by omega) (by omega), Int.tmod_eq_emod_of_nonneg (by omega),
          Int.emod_add_emod]
  rw [sum_of_mins_eq]
  exact hLoop A.length le_rfl

theorem sumSubarrayMins_eq_four :
    sumSubarrayMins [3, 1, 2, 4] = sum_of_mins [3, 1, 2, 4] % MOD :=
  sumSubarrayMins_eq (by decide) (by decide)

end SubarrayMins

end CppPerf.Sequences.MonotoneStack
