import Mathlib.Data.List.Basic
import Mathlib.Order.Lattice
import Mathlib.Tactic.Common

/-! The part of an increasing list between two bounds. -/
namespace SortedRange

variable {α : Type*} [LinearOrder α]

/-- The entries below a bound. -/
def below (m : α) (l : List α) : List α := l.filter (· < m)

/-- The entries from `a` on and below `b`. -/
def between (a b : α) (l : List α) : List α := l.filter fun x => a ≤ x && x < b

theorem mem_between {a b x : α} {l : List α} : x ∈ between a b l ↔ x ∈ l ∧ a ≤ x ∧ x < b := by
  simp [between]

theorem between_nodup {l : List α} (h : l.Pairwise (· < ·)) (a b : α) :
    (between a b l).Nodup :=
  (List.Pairwise.imp (fun hLt => ne_of_lt hLt) h).filter _

/-- In an increasing list the entries below a bound stand in front. -/
theorem takeWhile_eq_below {l : List α} (h : l.Pairwise (· < ·)) (m : α) :
    l.takeWhile (· < m) = below m l := by
  induction l with
  | nil => rfl
  | cons x l ih =>
      rw [List.pairwise_cons] at h
      by_cases hx : x < m
      · simpa [below, hx] using ih h.2
      · have hNone : below m l = [] := by
          rw [below, List.filter_eq_nil_iff]
          intro y hy
          have hLt := h.1 y hy
          simpa using (le_of_not_gt hx).trans hLt.le
        rw [below] at hNone
        simp [below, hx, hNone]

/-- Two neighbouring parts are one part. -/
theorem between_append {l : List α} (h : l.Pairwise (· < ·)) {a m b : α} (ham : a ≤ m)
    (hmb : m ≤ b) : between a m l ++ between m b l = between a b l := by
  induction l with
  | nil => rfl
  | cons x l ih =>
      rw [List.pairwise_cons] at h
      have hRest := ih h.2
      unfold between at hRest ⊢
      by_cases hxm : x < m
      · have hNot : ¬m ≤ x := not_le_of_gt hxm
        by_cases hax : a ≤ x
        · simpa [hxm, hNot, hax, hxm.trans_le hmb] using hRest
        · simpa [hNot, hax] using hRest
      · have hmx : m ≤ x := le_of_not_gt hxm
        have hNone : l.filter (fun y => a ≤ y && y < m) = [] := by
          rw [List.filter_eq_nil_iff]
          intro y hy
          have hLt := h.1 y hy
          simp [hmx.trans hLt.le]
        rw [hNone, List.nil_append] at hRest
        by_cases hxb : x < b
        · simpa [hxm, hmx, ham.trans hmx, hxb, hNone] using hRest
        · simpa [hxm, hxb, hNone] using hRest

/-- Counting below two bounds counts what is between them. -/
theorem length_below {l : List α} {a b : α} (hab : a ≤ b) :
    (below b l).length = (below a l).length + (between a b l).length := by
  unfold below between
  induction l with
  | nil => rfl
  | cons x l ih =>
      by_cases hxa : x < a
      · have hxb : x < b := hxa.trans_le hab
        have hNot : ¬a ≤ x := not_le_of_gt hxa
        simp only [hxa, hxb, hNot, decide_true, decide_false, Bool.false_and, List.filter_cons,
          ↓reduceIte, List.length_cons, Bool.false_eq_true]
        omega
      · have hax : a ≤ x := le_of_not_gt hxa
        by_cases hxb : x < b
        · simp only [hxa, hxb, hax, decide_true, decide_false, Bool.and_self, List.filter_cons,
            ↓reduceIte, List.length_cons, Bool.false_eq_true]
          omega
        · simp only [hxa, hxb, decide_false, Bool.and_false, List.filter_cons,
            ↓reduceIte, Bool.false_eq_true]
          omega

end SortedRange
