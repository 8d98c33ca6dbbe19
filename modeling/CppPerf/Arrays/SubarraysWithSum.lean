import CppPerf.Semantics.BinarySearch
import CppPerf.Semantics.Subarrays
import CppPerf.Arrays.PartialSum
import Mathlib.Algebra.Order.Ring.Int

/-! The subarrays with a given sum, from `BinarySearch.cpp`. An iterator is a position, and
reading the element of one at the end fails. -/
namespace CppPerf.Arrays

open Text SortedRange

/-- The loop of `count_consecutive`. -/
def count_consecutive_loop (target : Int) : List Int → (cnt : Int) → (counts : List Int) → List Int
  | [], cnt, counts => if cnt > 0 then counts ++ [cnt] else counts
  | x :: rest, cnt, counts =>
      if x = target then count_consecutive_loop target rest (int (cnt + 1)) counts
      else if cnt > 0 then count_consecutive_loop target rest 0 (counts ++ [cnt])
      else count_consecutive_loop target rest cnt counts

def count_consecutive (l : List Int) (target : Int) : List Int :=
  count_consecutive_loop target l 0 []

/-- `init + c*(c + 1) / 2` -/
def add_subarrays (init c : Int) : Int := int (init + (int (c * int (c + 1))).tdiv 2)

def equal_range (A : List Int) (first last : Nat) (value : Int) : Nat × Nat :=
  (lowerBound A value first (last - first), upperBound A value first (last - first))

/-- The loop over the two ranges. Each round moves the second one forward. -/
def block_loop (A : List Int) (S : Int) :
    (rounds : Nat) → (start sum_end : Nat × Nat) → (total : Int) → Option Int
  | 0, _, _, _ => none
  | rounds + 1, start, sum_end, total =>
      if sum_end.2 ≠ A.length then do
        let value ← A[start.2]?
        let target := int (value + S)
        let start := equal_range A start.2 A.length value
        let sum_end := equal_range A sum_end.2 A.length target
        let ways := int (int (start.2 - start.1) * int (sum_end.2 - sum_end.1))
        block_loop A S rounds start sum_end (int (total + ways))
      else some total

def numSubarraysWithSum (A : List Int) (S : Int) : Option Int :=
  if S = 0 then some ((count_consecutive A S).foldl add_subarrays 0)
  else
    let A := partial_sum A
    match A.getLast? with
    | none => some 0
    | some last =>
        if S > last then some 0
        else
          let start := equal_range A 0 A.length 0
          let sum_end := equal_range A 0 A.length S
          let ways := int (int (int (start.2 - start.1) + 1) * int (sum_end.2 - sum_end.1))
          block_loop A S (A.length + 1) start sum_end (int (0 + ways))

/-! The subarrays without ones are counted by their runs of zeros. -/

open Subarrays

variable {A l p : List Int} {cs : List Nat} {c cnt k : Nat}

/-- The lengths of the runs of zeros, of which the first has already begun. -/
def runs (cnt : Nat) : List Int → List Nat
  | [] => if 0 < cnt then [cnt] else []
  | x :: l => if x = 0 then runs (cnt + 1) l else (if 0 < cnt then [cnt] else []) ++ runs 0 l

def triangle (c : Nat) : Nat := c * (c + 1) / 2

theorem triangle_succ (c : Nat) : triangle (c + 1) = triangle c + c + 1 := by
  have hEq : (c + 1) * (c + 1 + 1) = c * (c + 1) + 2 * (c + 1) := by
    rw [← Nat.add_mul, Nat.mul_comm]
  rw [triangle, triangle, hEq]
  omega

theorem exists_le_run (hPos : 0 < cnt) (l : List Int) : ∃ c ∈ runs cnt l, cnt ≤ c := by
  induction l generalizing cnt with
  | nil => exact ⟨cnt, by simp [runs, hPos], Nat.le_refl cnt⟩
  | cons x l ih =>
      rw [runs]
      split_ifs
      · obtain ⟨c, hc, hLe⟩ := ih (Nat.succ_pos cnt)
        exact ⟨c, hc, Nat.le_of_succ_le hLe⟩
      · exact ⟨cnt, by simp, Nat.le_refl cnt⟩

theorem count_consecutive_loop_eq (hSmall : ∀ c ∈ runs cnt l, c < 2 ^ 31) (counts : List Int) :
    count_consecutive_loop 0 l cnt counts = counts ++ (runs cnt l).map Nat.cast := by
  induction l generalizing cnt counts with
  | nil =>
      rw [count_consecutive_loop, runs]
      by_cases hPos : 0 < cnt
      · simp [hPos]
      · simp [hPos]
  | cons x l ih =>
      rw [count_consecutive_loop, runs]
      rw [runs] at hSmall
      by_cases hZero : x = 0
      · rw [if_pos hZero] at hSmall ⊢
        rw [if_pos hZero]
        obtain ⟨c, hc, hLe⟩ := exists_le_run (Nat.succ_pos cnt) l
        have hBound := hSmall c hc
        have hInt : int ((cnt : Int) + 1) = ((cnt + 1 : Nat) : Int) :=
          Int.bmod_eq_of_le (by omega) (by omega)
        rw [hInt, ih hSmall]
      · rw [if_neg hZero] at hSmall ⊢
        rw [if_neg hZero]
        have hRest : ∀ c ∈ runs 0 l, c < 2 ^ 31 := fun c hc =>
          hSmall c (List.mem_append_right _ hc)
        by_cases hPos : 0 < cnt
        · simpa [hPos] using ih hRest (counts ++ [(cnt : Int)])
        · obtain rfl : cnt = 0 := by omega
          simpa using ih hRest counts

/-- The subarrays without ones are those of the runs. -/
theorem number_zero (hNonneg : ∀ a ∈ p ++ l, 0 ≤ a) (hLevel : level p = cnt + 1) :
    number (p ++ l) 0 + triangle cnt = number p 0 + ((runs cnt l).map triangle).sum := by
  induction l generalizing p cnt with
  | nil =>
      rw [List.append_nil, runs]
      split_ifs with hPos
      · simp
      · obtain rfl : cnt = 0 := by omega
        rfl
  | cons x l ih =>
      have hFront : ∀ a ∈ p, 0 ≤ a := fun a ha => hNonneg a (List.mem_append_left _ ha)
      have hx : 0 ≤ x := hNonneg x (by simp)
      rw [List.append_cons] at hNonneg ⊢
      rw [runs]
      by_cases hZero : x = 0
      · rw [hZero] at hNonneg ⊢
        rw [if_pos rfl]
        have hNext : level (p ++ [0]) = cnt + 1 + 1 := by rw [level_concat_zero, hLevel]
        have hRest := ih hNonneg hNext
        rw [number_concat_zero, triangle_succ, hLevel] at hRest
        omega
      · rw [if_neg hZero, List.map_append, List.sum_append]
        have hPos : 0 < x := by omega
        have hNext : level (p ++ [x]) = 0 + 1 := level_concat_of_pos hFront hPos
        have hRest := ih hNonneg hNext
        rw [number_concat_of_pos hFront hPos] at hRest
        have hTriangle : ((if 0 < cnt then [cnt] else []).map triangle).sum = triangle cnt := by
          split_ifs with hRun
          · simp
          · obtain rfl : cnt = 0 := by omega
            rfl
        have hNone : triangle 0 = 0 := rfl
        omega

theorem runs_replicate (cnt n : Nat) (h : 0 < cnt + n) :
    runs cnt (List.replicate n 0) = [cnt + n] := by
  induction n generalizing cnt with
  | zero => exact if_pos h
  | succ n ih =>
      rw [List.replicate_succ, runs, if_pos rfl, ih (cnt + 1) (by omega), Nat.add_right_comm,
        Nat.add_assoc]

theorem number_replicate {n : Nat} (hn : 0 < n) : number (List.replicate n 0) 0 = triangle n := by
  have hNonneg : ∀ a ∈ [] ++ List.replicate n (0 : Int), 0 ≤ a := by
    intro a ha
    rw [List.nil_append] at ha
    exact (List.eq_of_mem_replicate ha).ge
  have hLevel : level [] = 0 + 1 := by decide
  have hRuns := number_zero hNonneg hLevel
  have hEmpty : number [] 0 = 0 ∧ triangle 0 = 0 := by decide
  rw [runs_replicate 0 n (by omega), List.nil_append, List.map_singleton, List.sum_singleton,
    Nat.zero_add, hEmpty.1, hEmpty.2] at hRuns
  omega

/-- A list without an element lies on one side of it. -/
theorem infix_append_cons {α : Type} {w u v : List α} {x : α} (hx : x ∉ w) :
    w <:+: u ++ x :: v ↔ w <:+: u ∨ w <:+: v := by
  constructor
  · rintro ⟨front, back, hEq⟩
    rw [List.append_assoc, List.append_eq_append_iff] at hEq
    rcases hEq with ⟨middle, rfl, hRest⟩ | ⟨middle, rfl, hRest⟩
    · rcases List.append_eq_append_iff.mp hRest with ⟨middle', rfl, -⟩ | ⟨middle', rfl, hBack⟩
      · exact Or.inl ⟨front, middle', by simp⟩
      · cases middle' with
        | nil => exact Or.inl ⟨front, [], by simp⟩
        | cons y middle' =>
            obtain ⟨rfl, -⟩ := List.cons.inj hBack
            exact absurd (by simp) hx
    · cases middle with
      | nil =>
          cases w with
          | nil => exact Or.inl List.nil_infix
          | cons y w =>
              obtain ⟨rfl, -⟩ := List.cons.inj hRest
              exact absurd List.mem_cons_self hx
      | cons y middle =>
          obtain ⟨-, hBack⟩ := List.cons.inj hRest
          exact Or.inr ⟨middle, back, by rw [hBack, List.append_assoc]; rfl⟩
  · rintro (⟨front, back, rfl⟩ | ⟨front, back, rfl⟩)
    · exact ⟨front, back ++ x :: v, by simp⟩
    · exact ⟨u ++ x :: front, back, by simp⟩

theorem replicate_infix_iff : List.replicate k 0 <:+: List.replicate c (0 : Int) ↔ k ≤ c := by
  constructor
  · intro h
    simpa using h.length_le
  · intro h
    refine ⟨List.replicate (c - k) 0, [], ?_⟩
    rw [List.append_nil, List.replicate_append_replicate, Nat.sub_add_cancel h]

/-- A run is at least so long if and only if so many zeros stand side by side. -/
theorem exists_run_iff (hk : 0 < k) (cnt : Nat) (l : List Int) :
    (∃ c ∈ runs cnt l, k ≤ c) ↔ List.replicate k 0 <:+: List.replicate cnt 0 ++ l := by
  have hBegun : ∀ cnt, (∃ c ∈ if 0 < cnt then [cnt] else [], k ≤ c) ↔ k ≤ cnt := by
    intro cnt
    split_ifs with hPos
    · simp
    · simp only [List.not_mem_nil, false_and, exists_false, false_iff]
      omega
  induction l generalizing cnt with
  | nil => rw [runs, hBegun, List.append_nil, replicate_infix_iff]
  | cons x l ih =>
      rw [runs]
      by_cases hZero : x = 0
      · rw [if_pos hZero, hZero]
        refine (ih (cnt + 1)).trans ?_
        rw [List.replicate_succ', List.append_assoc, List.singleton_append]
      · have hx : x ∉ List.replicate k 0 := fun hMem => hZero (List.eq_of_mem_replicate hMem)
        rw [if_neg hZero, infix_append_cons hx, replicate_infix_iff]
        have hRest := ih 0
        rw [List.replicate_zero, List.nil_append] at hRest
        simp only [List.mem_append, or_and_right, exists_or, hBegun, hRest]

section Overflow

/-- The product overflows from 46341 on. -/
theorem int_ways_eq (hc : c < 65536) :
    (int (c * int (c + 1))).tdiv 2 = triangle c - if 46341 ≤ c then 2 ^ 31 else 0 := by
  have hNext : int ((c : Int) + 1) = ((c + 1 : Nat) : Int) :=
    Int.bmod_eq_of_le (by omega) (by omega)
  have hLe : c * (c + 1) ≤ 65535 * 65536 := Nat.mul_le_mul (by omega) (by omega)
  have hEven : 2 * triangle c = c * (c + 1) := by
    rw [triangle, Nat.mul_div_cancel' (Nat.even_mul_succ_self c).two_dvd]
  have hInt : int (c * int (c + 1)) =
      2 * (triangle c - if 46341 ≤ c then 2 ^ 31 else 0) := by
    rw [hNext, ← Nat.cast_mul, ← hEven, int]
    split_ifs with hLong
    · have hGe : 46341 * 46342 ≤ c * (c + 1) := Nat.mul_le_mul hLong (by omega)
      rw [Int.bmod_def, Int.emod_eq_of_lt (by omega) (by omega), if_neg (by omega)]
      omega
    · have hGe : c * (c + 1) ≤ 46340 * 46341 := Nat.mul_le_mul (by omega) (by omega)
      rw [Int.bmod_eq_of_le (by omega) (by omega)]
      omega
  rw [hInt, Int.mul_tdiv_cancel_left _ (by decide)]

/-- How many runs are so long that the product overflows. -/
def overflows (cs : List Nat) : Nat := cs.countP (46341 ≤ ·)

theorem overflows_cons (c : Nat) (cs : List Nat) :
    overflows (c :: cs) = overflows cs + if 46341 ≤ c then 1 else 0 := by
  simp [overflows, List.countP_cons]

theorem triangle_mono {d : Nat} (h : c ≤ d) : triangle c ≤ triangle d :=
  Nat.div_le_div_right (Nat.mul_le_mul h (Nat.succ_le_succ h))

theorem lt_of_triangle_lt (h : triangle c < 2 ^ 31) : c < 65536 := by
  by_contra hGe
  have hMono : 2147516416 ≤ triangle c := triangle_mono (Nat.le_of_not_lt hGe)
  omega

theorem foldl_add_subarrays {init : Nat} (m : Nat)
    (hSum : init + (cs.map triangle).sum < 2 ^ 31) (hOnce : m + overflows cs ≤ 1) :
    (cs.map Nat.cast).foldl add_subarrays ((init : Int) - 2 ^ 31 * m) =
      ((init + (cs.map triangle).sum : Nat) : Int) - 2 ^ 31 * (m + overflows cs : Nat) := by
  induction cs generalizing init m with
  | nil => simp [overflows]
  | cons c cs ih =>
      rw [List.map_cons, List.sum_cons] at hSum
      rw [overflows_cons] at hOnce
      have hc : c < 65536 := lt_of_triangle_lt (by omega)
      have hStep : add_subarrays ((init : Int) - 2 ^ 31 * m) c =
          ((init + triangle c : Nat) : Int) -
            2 ^ 31 * (m + if 46341 ≤ c then 1 else 0 : Nat) := by
        rw [add_subarrays, int_ways_eq hc]
        split_ifs at hOnce ⊢ with hLong
        · rw [int, Int.bmod_eq_of_le (by omega) (by omega)]
          omega
        · rw [int, Int.bmod_eq_of_le (by omega) (by omega)]
          omega
      rw [List.map_cons, List.foldl_cons, hStep, ih _ (by omega) (by omega), overflows_cons,
        List.map_cons, List.sum_cons]
      omega

theorem overflows_le (cs : List Nat) : overflows cs * 1073767311 ≤ (cs.map triangle).sum := by
  induction cs with
  | nil => simp [overflows]
  | cons c cs ih =>
      rw [overflows_cons, List.map_cons, List.sum_cons]
      split_ifs with hLong
      · have hMono : 1073767311 ≤ triangle c := triangle_mono hLong
        rw [Nat.add_mul, Nat.one_mul, Nat.add_comm]
        exact Nat.add_le_add hMono ih
      · exact Nat.le_add_left_of_le ih

end Overflow

/-- The count is right if and only if no run of zeros is so long. -/
theorem foldl_count_consecutive (hNonneg : ∀ a ∈ A, 0 ≤ a) (hNumber : number A 0 < 2 ^ 31) :
    (count_consecutive A 0).foldl add_subarrays 0 = number A 0 ↔
      ¬List.replicate 46341 0 <:+: A := by
  have hLevel : level [] = 0 + 1 := by decide
  have hRuns := number_zero (p := []) (by simpa using hNonneg) hLevel
  rw [List.nil_append] at hRuns
  have hEmpty : number [] 0 = 0 ∧ triangle 0 = 0 := by decide
  have hSum : ((runs 0 A).map triangle).sum = number A 0 := by omega
  have hSmall : ∀ c ∈ runs 0 A, c < 2 ^ 31 := by
    intro c hc
    have hMem : triangle c ∈ (runs 0 A).map triangle := List.mem_map_of_mem hc
    have hLe := List.single_le_sum (fun _ _ => Nat.zero_le _) _ hMem
    have hLt : c < 65536 := lt_of_triangle_lt (by omega)
    omega
  have hLoop : count_consecutive A 0 = (runs 0 A).map Nat.cast :=
    count_consecutive_loop_eq hSmall []
  have hOverflows := overflows_le (runs 0 A)
  have hFold : ((runs 0 A).map Nat.cast).foldl add_subarrays 0 =
      (number A 0 : Int) - 2 ^ 31 * overflows (runs 0 A) := by
    have hFrom := @foldl_add_subarrays (runs 0 A) 0 0 (by omega) (by omega)
    simpa [hSum] using hFrom
  have hRun := exists_run_iff (k := 46341) (by decide) 0 A
  rw [List.replicate_zero, List.nil_append] at hRun
  rw [hLoop, hFold, ← hRun]
  constructor
  · rintro hEq ⟨c, hc, hLe⟩
    have hSome : 0 < overflows (runs 0 A) := List.countP_pos_iff.mpr ⟨c, hc, by simpa using hLe⟩
    omega
  · intro hNone
    have hZero : overflows (runs 0 A) = 0 :=
      List.countP_eq_zero.mpr fun c hc => by simpa using fun hLe => hNone ⟨c, hc, hLe⟩
    rw [hZero]
    simp

end CppPerf.Arrays
