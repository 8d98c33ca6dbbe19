import Mathlib.Data.List.Basic
import Mathlib.Tactic.Common

/-! Longest common subsequences and shortest common supersequences of two lists. -/
namespace CommonSubsequence

variable {α : Type*}

theorem take_of_getElem {s : List α} {i : Nat} {a : α} (h : s[i]? = some a) :
    s.take (i + 1) = s.take i ++ [a] := by
  rw [List.take_add_one, h]
  rfl

variable [DecidableEq α]

/-- The length of a longest common subsequence. -/
def lcs : List α → List α → Nat
  | [], _ => 0
  | _ :: _, [] => 0
  | a :: s, b :: t => if a = b then lcs s t + 1 else max (lcs s (b :: t)) (lcs (a :: s) t)
termination_by s t => s.length + t.length

variable {a b : α} {s t u w r : List α}

@[simp] theorem lcs_nil_left (t : List α) : lcs [] t = 0 := by rw [lcs]

@[simp] theorem lcs_nil_right (s : List α) : lcs s [] = 0 := by
  cases s with
  | nil => rw [lcs]
  | cons a s => rw [lcs]

theorem lcs_cons_self (a : α) (s t : List α) : lcs (a :: s) (a :: t) = lcs s t + 1 := by
  rw [lcs, if_pos rfl]

theorem lcs_cons_of_ne (h : a ≠ b) (s t : List α) :
    lcs (a :: s) (b :: t) = max (lcs s (b :: t)) (lcs (a :: s) t) := by
  rw [lcs, if_neg h]

/-- There is a common subsequence of this length. -/
theorem exists_common (s t : List α) : ∃ w : List α, w.Sublist s ∧ w.Sublist t ∧
    w.length = lcs s t := by
  induction s, t using lcs.induct with
  | case1 t => exact ⟨[], List.nil_sublist _, List.nil_sublist _, by simp⟩
  | case2 a s => exact ⟨[], List.nil_sublist _, List.nil_sublist _, by simp⟩
  | case3 s b t ih =>
      obtain ⟨w, hs, ht, hLength⟩ := ih
      refine ⟨b :: w, hs.cons_cons b, ht.cons_cons b, ?_⟩
      rw [lcs_cons_self, List.length_cons, hLength]
  | case4 a s b t hNe ihLeft ihRight =>
      rw [lcs_cons_of_ne hNe]
      rcases Nat.le_total (lcs s (b :: t)) (lcs (a :: s) t) with hLe | hLe
      · obtain ⟨w, hs, ht, hLength⟩ := ihRight
        exact ⟨w, hs, ht.cons b, by rw [hLength, Nat.max_eq_right hLe]⟩
      · obtain ⟨w, hs, ht, hLength⟩ := ihLeft
        exact ⟨w, hs.cons a, ht, by rw [hLength, Nat.max_eq_left hLe]⟩

/-- No common subsequence is longer. -/
theorem length_le_lcs (hs : w.Sublist s) (ht : w.Sublist t) : w.length ≤ lcs s t := by
  induction s, t using lcs.induct generalizing w with
  | case1 t => simp [List.sublist_nil.mp hs]
  | case2 a s => simp [List.sublist_nil.mp ht]
  | case3 s b t ih =>
      have hTail := ih hs.tail ht.tail
      rw [List.length_tail] at hTail
      rw [lcs_cons_self]
      omega
  | case4 a s b t hNe ihLeft ihRight =>
      rw [lcs_cons_of_ne hNe]
      rcases List.sublist_cons_iff.mp hs with hs' | ⟨w', rfl, -⟩
      · exact Nat.le_trans (ihLeft hs' ht) (Nat.le_max_left _ _)
      · rcases List.sublist_cons_iff.mp ht with ht' | ⟨w'', hEq, -⟩
        · exact Nat.le_trans (ihRight hs ht') (Nat.le_max_right _ _)
        · exact absurd (List.cons.inj hEq).1 hNe

theorem lcs_mono {s' t' : List α} (hs : s.Sublist s') (ht : t.Sublist t') :
    lcs s t ≤ lcs s' t' := by
  obtain ⟨w, hws, hwt, hLength⟩ := exists_common s t
  rw [← hLength]
  exact length_le_lcs (hws.trans hs) (hwt.trans ht)

theorem lcs_comm (s t : List α) : lcs s t = lcs t s := by
  have hLe : ∀ s t : List α, lcs s t ≤ lcs t s := by
    intro s t
    obtain ⟨w, hs, ht, hLength⟩ := exists_common s t
    rw [← hLength]
    exact length_le_lcs ht hs
  exact Nat.le_antisymm (hLe s t) (hLe t s)

theorem lcs_reverse (s t : List α) : lcs s.reverse t.reverse = lcs s t := by
  have hLe : ∀ s t : List α, lcs s t ≤ lcs s.reverse t.reverse := by
    intro s t
    obtain ⟨w, hs, ht, hLength⟩ := exists_common s t
    rw [← hLength, ← List.length_reverse]
    exact length_le_lcs hs.reverse ht.reverse
  apply Nat.le_antisymm
  · have hBack := hLe s.reverse t.reverse
    rwa [List.reverse_reverse, List.reverse_reverse] at hBack
  · exact hLe s t

theorem lcs_concat_self (a : α) (s t : List α) : lcs (s ++ [a]) (t ++ [a]) = lcs s t + 1 := by
  rw [← lcs_reverse, List.reverse_concat, List.reverse_concat, lcs_cons_self, lcs_reverse]

theorem lcs_concat_of_ne (h : a ≠ b) (s t : List α) :
    lcs (s ++ [a]) (t ++ [b]) = max (lcs s (t ++ [b])) (lcs (s ++ [a]) t) := by
  rw [← lcs_reverse, List.reverse_concat, List.reverse_concat, lcs_cons_of_ne h,
    ← List.reverse_concat, ← List.reverse_concat, lcs_reverse, lcs_reverse]

section Prefixes

variable {i j : Nat}

theorem lcs_take_self (hs : s[i]? = some a) (ht : t[j]? = some a) :
    lcs (s.take (i + 1)) (t.take (j + 1)) = lcs (s.take i) (t.take j) + 1 := by
  rw [take_of_getElem hs, take_of_getElem ht, lcs_concat_self]

theorem lcs_take_of_ne (hs : s[i]? = some a) (ht : t[j]? = some b) (hNe : a ≠ b) :
    lcs (s.take (i + 1)) (t.take (j + 1)) =
      max (lcs (s.take i) (t.take (j + 1))) (lcs (s.take (i + 1)) (t.take j)) := by
  rw [take_of_getElem hs, take_of_getElem ht, lcs_concat_of_ne hNe]

end Prefixes

/-- A common supersequence is at least as long as the two lists without what they
have in common. -/
theorem length_add_le (hs : s.Sublist u) (ht : t.Sublist u) :
    s.length + t.length ≤ u.length + lcs s t := by
  induction u generalizing s t with
  | nil => simp [List.sublist_nil.mp hs, List.sublist_nil.mp ht]
  | cons c u ih =>
      rcases List.sublist_cons_iff.mp hs with hs' | ⟨s', rfl, hs'⟩
      · rcases List.sublist_cons_iff.mp ht with ht' | ⟨t', rfl, ht'⟩
        · have hRest := ih hs' ht'
          rw [List.length_cons]
          omega
        · have hRest := ih hs' ht'
          have hMono := lcs_mono (List.Sublist.refl s) (List.sublist_cons_self c t')
          rw [List.length_cons, List.length_cons]
          omega
      · rcases List.sublist_cons_iff.mp ht with ht' | ⟨t', rfl, ht'⟩
        · have hRest := ih hs' ht'
          have hMono := lcs_mono (List.sublist_cons_self c s') (List.Sublist.refl t)
          rw [List.length_cons, List.length_cons]
          omega
        · have hRest := ih hs' ht'
          rw [lcs_cons_self, List.length_cons, List.length_cons, List.length_cons]
          omega

/-- A common supersequence in which no more than a longest common subsequence is
shared. -/
structure Shortest (s t r : List α) : Prop where
  left : s.Sublist r
  right : t.Sublist r
  length_eq : r.length + lcs s t = s.length + t.length

namespace Shortest

theorem length_le (h : Shortest s t r) (hs : s.Sublist u) (ht : t.Sublist u) :
    r.length ≤ u.length := by
  have hLe := length_add_le hs ht
  have hLength := h.length_eq
  omega

theorem nil_left (t : List α) : Shortest [] t t :=
  ⟨List.nil_sublist t, List.Sublist.refl t, by simp⟩

theorem nil_right (s : List α) : Shortest s [] s :=
  ⟨List.Sublist.refl s, List.nil_sublist s, by simp⟩

theorem eq_nil (h : Shortest [] [] r) : r = [] := by
  have hLength := h.length_eq
  rw [lcs_nil_left] at hLength
  exact List.length_eq_zero_iff.mp hLength

theorem cons_self (h : Shortest s t r) (a : α) : Shortest (a :: s) (a :: t) (a :: r) where
  left := h.left.cons_cons a
  right := h.right.cons_cons a
  length_eq := by
    have hLength := h.length_eq
    rw [lcs_cons_self, List.length_cons, List.length_cons, List.length_cons]
    omega

theorem cons_left (h : Shortest s t r) (hEq : lcs (a :: s) t = lcs s t) :
    Shortest (a :: s) t (a :: r) where
  left := h.left.cons_cons a
  right := h.right.cons a
  length_eq := by
    have hLength := h.length_eq
    rw [hEq, List.length_cons, List.length_cons]
    omega

theorem reverse (h : Shortest s t r) : Shortest s.reverse t.reverse r.reverse where
  left := h.left.reverse
  right := h.right.reverse
  length_eq := by
    have hLength := h.length_eq
    rwa [lcs_reverse, List.length_reverse, List.length_reverse, List.length_reverse]

theorem symm (h : Shortest s t r) : Shortest t s r where
  left := h.right
  right := h.left
  length_eq := by
    have hLength := h.length_eq
    rw [lcs_comm]
    omega

theorem cons_right (h : Shortest s t r) (hEq : lcs s (b :: t) = lcs s t) :
    Shortest s (b :: t) (b :: r) := by
  rw [lcs_comm, lcs_comm s] at hEq
  exact (h.symm.cons_left hEq).symm

/-- If the first elements differ, one of them comes first, and the shorter rest
goes after it. -/
theorem shorter {r' : List α} (h : Shortest s (b :: t) r) (h' : Shortest (a :: s) t r')
    (hNe : a ≠ b) :
    Shortest (a :: s) (b :: t) (if r.length < r'.length then a :: r else b :: r') := by
  have hMax := lcs_cons_of_ne hNe s t
  have hLength := h.length_eq
  have hLength' := h'.length_eq
  rw [List.length_cons] at hLength hLength'
  split_ifs with hShorter
  · exact h.cons_left (by omega)
  · exact h'.cons_right (by omega)

theorem concat_self (h : Shortest s t r) (a : α) :
    Shortest (s ++ [a]) (t ++ [a]) (r ++ [a]) := by
  have hCons := (h.reverse.cons_self a).reverse
  simpa only [List.reverse_cons, List.reverse_reverse] using hCons

theorem concat_left (h : Shortest s t r) (hEq : lcs (s ++ [a]) t = lcs s t) :
    Shortest (s ++ [a]) t (r ++ [a]) := by
  rw [← lcs_reverse, List.reverse_concat, ← lcs_reverse s] at hEq
  have hCons := (h.reverse.cons_left hEq).reverse
  simpa only [List.reverse_cons, List.reverse_reverse] using hCons

theorem concat_right (h : Shortest s t r) (hEq : lcs s (t ++ [b]) = lcs s t) :
    Shortest s (t ++ [b]) (r ++ [b]) := by
  rw [lcs_comm, lcs_comm s] at hEq
  exact (h.symm.concat_left hEq).symm

end Shortest
end CommonSubsequence
