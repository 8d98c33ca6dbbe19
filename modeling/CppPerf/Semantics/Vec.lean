import Mathlib.Algebra.Ring.Nat
import Mathlib.Data.List.Basic
import Mathlib.Data.List.Range
import Mathlib.Logic.Function.Basic
import Mathlib.Tactic.Common

/-! Growable arrays read and written by index. Cells at or beyond the size
have a value so that reading is total; a development that uses them proves
that its indices stay below the size. -/
namespace Indexed

structure Vec (α : Type*) where
  size : Nat
  get : Nat → α

variable {α : Type*}

namespace Vec

def empty (default : α) : Vec α := ⟨0, fun _ => default⟩

/-- Grow or shrink; new cells are copies of the default. -/
def resize (v : Vec α) (size : Nat) (default : α) : Vec α :=
  ⟨size, fun i => if i < v.size then v.get i else default⟩

def set (v : Vec α) (i : Nat) (a : α) : Vec α :=
  { v with get := fun j => if j = i then a else v.get j }

/-- One more cell at the end. -/
def push (v : Vec α) (a : α) : Vec α :=
  ⟨v.size + 1, fun i => if i = v.size then a else v.get i⟩

def map {β : Type*} (f : α → β) (v : Vec α) : Vec β := ⟨v.size, fun i => f (v.get i)⟩

/-- Sum of a measure over the cells. -/
def total (f : α → Nat) (v : Vec α) : Nat :=
  ((List.range v.size).map fun i => f (v.get i)).sum

/-- Number of cells that satisfy the test. -/
def count (p : α → Bool) (v : Vec α) : Nat := v.total fun a => (p a).toNat

@[simp] theorem size_set (v : Vec α) (i : Nat) (a : α) : (v.set i a).size = v.size := rfl

@[simp] theorem get_set_self (v : Vec α) (i : Nat) (a : α) : (v.set i a).get i = a := by
  simp [set]

theorem get_set (v : Vec α) (i j : Nat) (a : α) :
    (v.set i a).get j = if j = i then a else v.get j := rfl

theorem get_set_of_ne (v : Vec α) {i j : Nat} (a : α) (h : j ≠ i) :
    (v.set i a).get j = v.get j := by
  simp [set, h]

theorem set_eq_self (v : Vec α) {i : Nat} {a : α} (h : v.get i = a) : v.set i a = v := by
  obtain ⟨size, get⟩ := v
  simp only [set, mk.injEq, true_and]
  funext j
  split_ifs with hSame
  · rw [hSame]
    exact h.symm
  · rfl

@[simp] theorem size_map {β : Type*} (f : α → β) (v : Vec α) : (v.map f).size = v.size := rfl

@[simp] theorem get_map {β : Type*} (f : α → β) (v : Vec α) (i : Nat) :
    (v.map f).get i = f (v.get i) := rfl

/-- What the new cell has in common with the old one stays in place. -/
theorem apply_get_set {β : Type*} (f : α → β) (v : Vec α) {i : Nat} {a : α}
    (h : f a = f (v.get i)) (j : Nat) : f ((v.set i a).get j) = f (v.get j) := by
  rw [get_set]
  split_ifs with hSame
  · rw [hSame, h]
  · rfl

@[simp] theorem size_push (v : Vec α) (a : α) : (v.push a).size = v.size + 1 := rfl

@[simp] theorem get_push_size (v : Vec α) (a : α) : (v.push a).get v.size = a := if_pos rfl

theorem get_push_of_lt (v : Vec α) {i : Nat} (a : α) (h : i < v.size) :
    (v.push a).get i = v.get i := if_neg (by omega)

private theorem sum_range_set (g : Nat → Nat) (n i m : Nat) (hi : i < n) :
    ((List.range n).map fun j => if j = i then m else g j).sum + g i =
      ((List.range n).map g).sum + m := by
  induction n with
  | zero => omega
  | succ n ih =>
      simp only [List.range_succ, List.map_append, List.map_cons, List.map_nil,
        List.sum_append, List.sum_cons, List.sum_nil]
      by_cases hn : i = n
      · subst i
        have hBelow : (List.range n).map (fun j => if j = n then m else g j) =
            (List.range n).map g := by
          apply List.map_congr_left
          intro j hj
          have hLt := List.mem_range.mp hj
          exact if_neg (by omega)
        rw [hBelow, if_pos rfl]
        omega
      · have hPrefix := ih (by omega)
        rw [if_neg (Ne.symm hn)]
        omega

/-- Overwriting one cell changes the sum by that cell alone. -/
theorem total_set (f : α → Nat) (v : Vec α) (i : Nat) (a : α) (hi : i < v.size) :
    (v.set i a).total f + f (v.get i) = v.total f + f a := by
  have hPoint : (fun j => f ((v.set i a).get j)) = fun j => if j = i then f a else f (v.get j) := by
    funext j
    rw [get_set]
    split_ifs <;> rfl
  rw [total, hPoint, size_set]
  exact sum_range_set (fun j => f (v.get j)) v.size i (f a) hi

theorem get_le_total (f : α → Nat) (v : Vec α) {i : Nat} (hi : i < v.size) :
    f (v.get i) ≤ v.total f := by
  have hCell := sum_range_set (fun k => f (v.get k)) v.size i 0 hi
  unfold total
  omega

/-- Two different cells are counted both. -/
theorem add_le_total (f : α → Nat) (v : Vec α) {i j : Nat} (hi : i < v.size) (hj : j < v.size)
    (hij : i ≠ j) : f (v.get i) + f (v.get j) ≤ v.total f := by
  have hFirst := sum_range_set (fun k => f (v.get k)) v.size i 0 hi
  have hSecond := sum_range_set (fun k => if k = i then 0 else f (v.get k)) v.size j 0 hj
  simp only [if_neg hij.symm] at hSecond
  unfold total
  omega

theorem total_eq_zero (f : α → Nat) (v : Vec α) (h : ∀ i < v.size, f (v.get i) = 0) :
    v.total f = 0 := by
  rw [total, List.sum_eq_zero_iff_forall_eq_nat]
  intro m hm
  obtain ⟨i, hi, rfl⟩ := List.mem_map.mp hm
  exact h i (List.mem_range.mp hi)

theorem count_set (p : α → Bool) (v : Vec α) (i : Nat) (a : α) (hi : i < v.size) :
    (v.set i a).count p + (p (v.get i)).toNat = v.count p + (p a).toNat :=
  v.total_set (fun a => (p a).toNat) i a hi

theorem count_push (p : α → Bool) (v : Vec α) (a : α) :
    (v.push a).count p = v.count p + (p a).toNat := by
  have hBelow : (List.range v.size).map (fun i => (p ((v.push a).get i)).toNat) =
      (List.range v.size).map fun i => (p (v.get i)).toNat := by
    apply List.map_congr_left
    intro i hi
    rw [v.get_push_of_lt a (List.mem_range.mp hi)]
  simp only [count, total, size_push, List.range_succ, List.map_append, List.sum_append, hBelow,
    List.map_cons, List.map_nil, List.sum_cons, List.sum_nil, get_push_size, Nat.add_zero]

/-- Cells that are mapped to cells of the same kind. -/
theorem count_map (p : α → Bool) (f : α → α) (h : ∀ a, p (f a) = p a) (v : Vec α) :
    (v.map f).count p = v.count p := by
  simp only [count, total, size_map, get_map, h]

theorem count_eq_countP (p : α → Bool) (v : Vec α) :
    v.count p = (List.range v.size).countP fun i => p (v.get i) := by
  rw [count, total]
  induction List.range v.size with
  | nil => rfl
  | cons i rest ih =>
      rw [List.map_cons, List.sum_cons, ih, List.countP_cons]
      cases p (v.get i) <;> simp [Nat.add_comm]

theorem count_le_size (p : α → Bool) (v : Vec α) : v.count p ≤ v.size := by
  rw [count_eq_countP]
  exact List.countP_le_length.trans_eq List.length_range

theorem count_eq_zero (p : α → Bool) (v : Vec α) (h : ∀ i < v.size, p (v.get i) = false) :
    v.count p = 0 := by
  rw [count_eq_countP, List.countP_eq_zero]
  intro i hi
  simp [h i (List.mem_range.mp hi)]

theorem count_pos_iff (p : α → Bool) (v : Vec α) :
    0 < v.count p ↔ ∃ i < v.size, p (v.get i) = true := by
  rw [count_eq_countP, List.countP_pos_iff]
  simp only [List.mem_range]

private theorem countP_range_unique (q : Nat → Bool) (n i : Nat) (hi : i < n) (hq : q i = true)
    (hOnly : ∀ j < n, q j = true → j = i) : (List.range n).countP q = 1 := by
  induction n with
  | zero => omega
  | succ n ih =>
      rw [List.range_succ, List.countP_append, List.countP_singleton]
      by_cases hn : i = n
      · subst i
        have hBelow : (List.range n).countP q = 0 := by
          rw [List.countP_eq_zero]
          intro j hj hqj
          have hLt := List.mem_range.mp hj
          have hEq := hOnly j (by omega) hqj
          omega
        simp [hBelow, hq]
      · have hLast : q n = false := by
          by_contra hqn
          exact hn (hOnly n (by omega) (by simpa using hqn)).symm
        rw [ih (by omega) fun j hj => hOnly j (by omega), hLast]
        rfl

/-- One cell satisfies the test and no other does. -/
theorem count_eq_one (p : α → Bool) (v : Vec α) (i : Nat) (hi : i < v.size)
    (hp : p (v.get i) = true) (hOnly : ∀ j < v.size, p (v.get j) = true → j = i) :
    v.count p = 1 := by
  rw [count_eq_countP]
  exact countP_range_unique (fun j => p (v.get j)) v.size i hi hp hOnly

end Vec
end Indexed
