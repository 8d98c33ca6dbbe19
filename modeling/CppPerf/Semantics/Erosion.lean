import Mathlib.Data.ENat.Lattice
import Mathlib.Data.List.Basic
import Mathlib.Tactic.Common

/-! A list that loses, day after day, every element that is greater than its left
neighbour. The day on which an element goes can be read off the elements before
it: it is one more than the latest day since the last smaller element. -/
namespace Erosion

section left

variable {α : Type*} {k : ℕ} {w : α}

/-- The elements that are left after `k` days. -/
def left (k : ℕ) (l : List (α × ℕ∞)) : List α := (l.filter fun e => (k : ℕ∞) < e.2).map Prod.fst

theorem left_cons (k : ℕ) (x : α × ℕ∞) (l : List (α × ℕ∞)) :
    left k (x :: l) = if (k : ℕ∞) < x.2 then x.1 :: left k l else left k l := by
  rw [left, List.filter_cons]
  split_ifs <;> simp_all [left]

/-- The nearest element that is left, behind the elements that are gone. -/
theorem exists_of_left_eq_cons {l : List (α × ℕ∞)} {ws : List α} (h : left k l = w :: ws) :
    ∃ dead e rest, l = dead ++ (w, e) :: rest ∧ (∀ x ∈ dead, x.2 ≤ (k : ℕ∞)) ∧ (k : ℕ∞) < e := by
  obtain ⟨x, rest, hFilter, rfl, -⟩ := List.map_eq_cons_iff.mp h
  obtain ⟨dead, behind, hSplit, hDead, hx, -⟩ := List.filter_eq_cons_iff.mp hFilter
  refine ⟨dead, x.2, behind, hSplit, fun y hy => ?_, by simpa using hx⟩
  simpa using hDead y hy

/-- The latest day on which an element goes, 0 if none does. -/
structure LatestDay (l : List (α × ℕ∞)) (latest : ℕ) : Prop where
  before : ∀ x ∈ l, x.2 = ⊤ ∨ x.2 ≤ latest
  attained : latest = 0 ∨ ∃ x ∈ l, x.2 = latest

/-- Elements that follow, the last of which goes on the day `later`. -/
theorem LatestDay.append {l new : List (α × ℕ∞)} {latest later : ℕ} (h : LatestDay l latest)
    (hNew : ∀ x ∈ new, x.2 ≤ later) (hLater : ∃ x ∈ new, x.2 = later) :
    LatestDay (new ++ l) (max latest later) := by
  constructor
  · intro x hx
    rcases List.mem_append.mp hx with hx | hx
    · exact Or.inr ((hNew x hx).trans (by simp))
    · exact (h.before x hx).imp_right fun hLe => hLe.trans (by simp)
  · rcases le_total latest later with hLe | hLe
    · obtain ⟨x, hx, hDay⟩ := hLater
      exact Or.inr ⟨x, List.mem_append_left _ hx, by rw [max_eq_right hLe, hDay]⟩
    · rw [max_eq_left hLe]
      exact h.attained.imp_right fun ⟨x, hx, hDay⟩ => ⟨x, List.mem_append_right _ hx, hDay⟩

theorem left_eq_of_latest {l : List (α × ℕ∞)} {latest : ℕ} (h : LatestDay l latest)
    (hk : latest ≤ k) : left (k + 1) l = left k l := by
  unfold left
  congr 1
  apply List.filter_congr
  intro x hx
  rcases h.before x hx with hTop | hLe
  · rw [hTop]
    simp
  · have hGone : x.2 ≤ k := hLe.trans (by exact_mod_cast hk)
    have hNext : x.2 ≤ (k + 1 : ℕ) := hGone.trans (by simp)
    rw [decide_eq_false (not_lt_of_ge hGone), decide_eq_false (not_lt_of_ge hNext)]

/-- Something goes between the days. -/
theorem length_left_lt {l : List (α × ℕ∞)} {later : ℕ} (hk : k ≤ later)
    (hMem : ∃ x ∈ l, (k : ℕ∞) < x.2 ∧ x.2 ≤ later) : (left later l).length < (left k l).length := by
  obtain ⟨x, hx, hLeft, hGone⟩ := hMem
  have hFilter : (l.filter fun y => (later : ℕ∞) < y.2) =
      (l.filter fun y => (k : ℕ∞) < y.2).filter fun y => (later : ℕ∞) < y.2 := by
    rw [List.filter_filter]
    apply List.filter_congr
    intro y _
    have hTrans : (later : ℕ∞) < y.2 → (k : ℕ∞) < y.2 := lt_of_le_of_lt (by exact_mod_cast hk)
    by_cases hLater : (later : ℕ∞) < y.2 <;> simp [hLater, hTrans]
  rw [left, left, List.length_map, List.length_map, hFilter]
  exact List.length_filter_lt_length_iff_exists.mpr
    ⟨x, List.mem_filter.mpr ⟨hx, by simpa using hLeft⟩, by simpa using hGone⟩

end left

variable {α : Type*} [LinearOrder α]

/-- What is left after a day of the elements behind `a`. -/
def erodeAfter (a : α) : List α → List α
  | [] => []
  | b :: l => if a < b then erodeAfter b l else b :: erodeAfter b l

/-- What is left after a day. -/
def erode : List α → List α
  | [] => []
  | a :: l => a :: erodeAfter a l

theorem length_erodeAfter_le (a : α) (l : List α) : (erodeAfter a l).length ≤ l.length := by
  induction l generalizing a with
  | nil => exact Nat.le_refl 0
  | cons b l ih =>
      rw [erodeAfter]
      split_ifs
      · exact (ih b).trans (Nat.le_succ _)
      · exact Nat.succ_le_succ (ih b)

theorem erodeAfter_eq_of_length (a : α) (l : List α) (h : l.length ≤ (erodeAfter a l).length) :
    erodeAfter a l = l := by
  induction l generalizing a with
  | nil => rfl
  | cons b l ih =>
      have hLe := length_erodeAfter_le b l
      rw [erodeAfter] at h ⊢
      split_ifs at h ⊢ with hLt
      · rw [List.length_cons] at h
        omega
      · rw [ih b (by simpa using h)]

theorem length_erode_lt {l : List α} (h : erode l ≠ l) : (erode l).length < l.length := by
  cases l with
  | nil => exact absurd rfl h
  | cons a l =>
      by_contra hLe
      rw [erode, List.length_cons, List.length_cons] at hLe
      exact h (by rw [erode, erodeAfter_eq_of_length a l (by omega)])

/-- The number of days on which something is lost. -/
def days (l : List α) : ℕ := if h : erode l = l then 0 else days (erode l) + 1
termination_by l.length
decreasing_by exact length_erode_lt h

theorem days_of_eq {l : List α} (h : erode l = l) : days l = 0 := by
  rw [days, dif_pos h]

theorem days_of_ne {l : List α} (h : erode l ≠ l) : days l = days (erode l) + 1 := by
  rw [days, dif_neg h]

theorem erodeAfter_concat (a : α) (l : List α) (w x : α) :
    erodeAfter a (l ++ [w, x]) = erodeAfter a (l ++ [w]) ++ if w < x then [] else [x] := by
  induction l generalizing a with
  | nil =>
      simp only [List.nil_append, erodeAfter]
      split_ifs <;> rfl
  | cons b l ih =>
      simp only [List.cons_append, erodeAfter, ih b]
      split_ifs <;> rfl

/-- The last element is compared with the one before it. -/
theorem erode_concat (l : List α) (w x : α) :
    erode (l ++ [w, x]) = erode (l ++ [w]) ++ if w < x then [] else [x] := by
  cases l with
  | nil =>
      simp only [List.nil_append, erode, erodeAfter]
      split_ifs <;> rfl
  | cons a l => rw [List.cons_append, List.cons_append, erode, erode, erodeAfter_concat]; rfl

/-- The day of an element with value `v`, where `before` are the elements before it
with their days, the nearest one first. `latest` is the latest day so far. -/
noncomputable def dayFrom (v : α) : List (α × ℕ∞) → (latest : ℕ∞) → ℕ∞
  | [], _ => ⊤
  | (w, d) :: before, latest => if w < v then latest + 1 else dayFrom v before (max latest d)

/-- The elements of a reversed list with their days. -/
noncomputable def withDays : List α → List (α × ℕ∞)
  | [] => []
  | v :: before => (v, dayFrom v (withDays before) 0) :: withDays before

variable {v w : α} {e latest : ℕ∞} {k : ℕ} {dead rest : List (α × ℕ∞)}

theorem lt_dayFrom (v : α) (before : List (α × ℕ∞)) (latest : ℕ∞) :
    latest + 1 ≤ dayFrom v before latest := by
  induction before generalizing latest with
  | nil => exact le_top
  | cons x before ih =>
      rw [dayFrom]
      split_ifs
      · exact le_rfl
      · exact (add_le_add_left (le_max_left latest x.2) 1).trans (ih _)

/-- Behind a smaller element and elements that are gone after `k` days. -/
theorem dayFrom_le (hDead : ∀ x ∈ dead, x.2 ≤ k) (hLatest : latest ≤ k) (hSmaller : w < v) :
    dayFrom v (dead ++ (w, e) :: rest) latest ≤ k + 1 := by
  induction dead generalizing latest with
  | nil =>
      rw [List.nil_append, dayFrom, if_pos hSmaller]
      exact add_le_add_left hLatest 1
  | cons x dead ih =>
      obtain ⟨hFirst, hRest⟩ := List.forall_mem_cons.mp hDead
      rw [List.cons_append, dayFrom]
      split_ifs
      · exact add_le_add_left hLatest 1
      · exact ih hRest (max_le hLatest hFirst)

/-- Behind elements that are not smaller, an element goes after them. -/
theorem lt_dayFrom_of_le (hDead : ∀ x ∈ dead, v ≤ x.1) (hNot : v ≤ w) :
    e + 1 ≤ dayFrom v (dead ++ (w, e) :: rest) latest := by
  induction dead generalizing latest with
  | nil =>
      rw [List.nil_append, dayFrom, if_neg (not_lt_of_ge hNot)]
      exact (add_le_add_left (le_max_right latest e) 1).trans (lt_dayFrom v rest _)
  | cons x dead ih =>
      obtain ⟨hFirst, hRest⟩ := List.forall_mem_cons.mp hDead
      rw [List.cons_append, dayFrom, if_neg (not_lt_of_ge hFirst)]
      exact ih hRest

/-- Behind a smaller element and elements that are not smaller, the last of which goes on
day `k`. -/
theorem dayFrom_eq (hDead : ∀ x ∈ dead, v ≤ x.1 ∧ x.2 ≤ k) (hLatest : ∃ x ∈ dead, x.2 = k)
    (hSmaller : w < v) : dayFrom v (dead ++ (w, e) :: rest) 0 = k + 1 := by
  apply le_antisymm
  · exact dayFrom_le (fun x hx => (hDead x hx).2) bot_le hSmaller
  · obtain ⟨x, hx, hDay⟩ := hLatest
    obtain ⟨before, after, rfl⟩ := List.append_of_mem hx
    rw [← hDay, List.append_assoc, List.cons_append]
    exact lt_dayFrom_of_le (fun y hy => (hDead y (by simp [hy])).1) (hDead x hx).1

/-- Without a smaller element before it an element stays. -/
theorem dayFrom_eq_top {before : List (α × ℕ∞)} (h : ∀ x ∈ before, v ≤ x.1) :
    dayFrom v before latest = ⊤ := by
  induction before generalizing latest with
  | nil => rfl
  | cons x before ih =>
      obtain ⟨hFirst, hRest⟩ := List.forall_mem_cons.mp h
      rw [dayFrom, if_neg (not_lt_of_ge hFirst), ih hRest]

theorem map_fst_withDays (l : List α) : (withDays l).map Prod.fst = l := by
  induction l with
  | nil => rfl
  | cons v before ih => rw [withDays, List.map_cons, ih]

/-- An element that is not greater than any before it stays. -/
theorem LatestDay.survivor {before : List α} {latest : ℕ} (h : LatestDay (withDays before) latest)
    (hMin : ∀ x ∈ before, v ≤ x) : LatestDay (withDays (v :: before)) latest := by
  have hTop : dayFrom v (withDays before) 0 = ⊤ := by
    apply dayFrom_eq_top
    intro x hx
    apply hMin
    rw [← map_fst_withDays before]
    exact List.mem_map_of_mem hx
  rw [withDays, hTop]
  constructor
  · exact List.forall_mem_cons.mpr ⟨Or.inl rfl, h.before⟩
  · exact h.attained.imp_right fun ⟨x, hx, hDay⟩ => ⟨x, List.mem_cons_of_mem _ hx, hDay⟩

/-- What is gone behind an element that is left was greater. -/
theorem lt_of_gone {l : List α} (hSplit : withDays l = dead ++ (w, e) :: rest)
    (hDead : ∀ x ∈ dead, x.2 ≤ k) (hLeft : k < e) : ∀ x ∈ dead, w < x.1 := by
  induction dead generalizing l with
  | nil => simp
  | cons x dead ih =>
      obtain ⟨hFirst, hRest⟩ := List.forall_mem_cons.mp hDead
      cases l with
      | nil => cases hSplit
      | cons v before =>
          rw [withDays, List.cons_append, List.cons.injEq] at hSplit
          obtain ⟨rfl, hBefore⟩ := hSplit
          have hGreater := ih hBefore hRest
          refine List.forall_mem_cons.mpr ⟨?_, hGreater⟩
          by_contra hNot
          have hLe : v ≤ w := le_of_not_gt hNot
          have hDay : e + 1 ≤ dayFrom v (withDays before) 0 := by
            rw [hBefore]
            exact lt_dayFrom_of_le (fun y hy => hLe.trans (hGreater y hy).le) hLe
          exact absurd ((le_self_add.trans hDay).trans hFirst) (not_le_of_gt hLeft)

/-- The first element never goes. -/
theorem exists_top (l : List α) (h : l ≠ []) : ∃ x ∈ withDays l, x.2 = ⊤ := by
  induction l with
  | nil => exact absurd rfl h
  | cons v before ih =>
      cases before with
      | nil => exact ⟨(v, ⊤), by simp [withDays, dayFrom], rfl⟩
      | cons w before =>
          obtain ⟨x, hx, hTop⟩ := ih (by simp)
          exact ⟨x, List.mem_cons_of_mem _ hx, hTop⟩

/-- An element goes on the next day exactly if the nearest element that is left
before it is smaller. -/
theorem smaller_iff {l : List α} (hSplit : withDays l = dead ++ (w, e) :: rest)
    (hDead : ∀ x ∈ dead, x.2 ≤ k) (hLeft : k < e) :
    w < v ↔ dayFrom v (withDays l) 0 ≤ k + 1 := by
  constructor
  · intro hSmaller
    rw [hSplit]
    exact dayFrom_le hDead bot_le hSmaller
  · intro hDay
    by_contra hNot
    have hLe : v ≤ w := le_of_not_gt hNot
    have hGreater := lt_of_gone hSplit hDead hLeft
    have hLater : e + 1 ≤ dayFrom v (withDays l) 0 := by
      rw [hSplit]
      exact lt_dayFrom_of_le (fun x hx => hLe.trans (hGreater x hx).le) hLe
    have hGone : e ≤ k := (ENat.add_le_add_iff_right ENat.one_ne_top).mp (hLater.trans hDay)
    exact absurd hGone (not_le_of_gt hLeft)

/-- After one more day the elements are left that have a later day. -/
theorem erode_left (l : List α) (k : ℕ) :
    erode (left k (withDays l)).reverse = (left (k + 1) (withDays l)).reverse := by
  induction l with
  | nil => rfl
  | cons v before ih =>
      rw [withDays, left_cons, left_cons]
      by_cases hGone : dayFrom v (withDays before) 0 ≤ k
      · rw [if_neg (not_lt_of_ge hGone), if_neg (not_lt_of_ge (hGone.trans (by simp))), ih]
      · rw [if_pos (lt_of_not_ge hGone)]
        cases hLeft : left k (withDays before) with
        | nil =>
            have hBefore : before = [] := by
              by_contra hNe
              obtain ⟨x, hx, hTop⟩ := exists_top before hNe
              have hMem : x.1 ∈ left k (withDays before) :=
                List.mem_map_of_mem (List.mem_filter.mpr ⟨hx, by simp [hTop]⟩)
              rw [hLeft] at hMem
              cases hMem
            subst hBefore
            rw [withDays, dayFrom, if_pos (by exact ENat.natCast_lt_top (k + 1))]
            rfl
        | cons w ws =>
            obtain ⟨dead, e, rest, hSplit, hDead, hw⟩ := exists_of_left_eq_cons hLeft
            rw [hLeft] at ih
            rw [List.reverse_cons] at ih
            rw [List.reverse_cons, List.reverse_cons, List.append_assoc, List.cons_append,
              List.nil_append, erode_concat, ih]
            by_cases hSmaller : w < v
            · have hDay := (smaller_iff hSplit hDead hw).mp hSmaller
              rw [if_pos hSmaller, if_neg (not_lt_of_ge (by simpa using hDay)), List.append_nil]
            · have hDay := (smaller_iff (v := v) hSplit hDead hw).not.mp hSmaller
              rw [if_neg hSmaller, if_pos (by simpa using lt_of_not_ge hDay), List.reverse_cons]

theorem left_zero (l : List α) : left 0 (withDays l) = l := by
  induction l with
  | nil => rfl
  | cons v before ih =>
      have hDay : (0 : ℕ∞) < dayFrom v (withDays before) 0 :=
        lt_of_lt_of_le (by simp) (lt_dayFrom v (withDays before) 0)
      rw [withDays, left_cons, if_pos (by exact_mod_cast hDay), ih]

/-- After a day without losses nothing is lost. -/
theorem left_eq_of_next (l : List α) (hNext : left (k + 1) (withDays l) = left k (withDays l))
    (j : ℕ) : left (k + j) (withDays l) = left k (withDays l) := by
  induction j with
  | zero => rfl
  | succ j ih =>
      apply List.reverse_injective
      rw [← Nat.add_assoc, ← erode_left, ih, erode_left, hNext]

theorem days_left (l : List α) {latest : ℕ} (h : LatestDay (withDays l) latest) (j : ℕ)
    (hj : k + j = latest) : days (left k (withDays l)).reverse = j := by
  induction j generalizing k with
  | zero =>
      have hStable := left_eq_of_latest h (show latest ≤ k from hj.ge)
      exact days_of_eq (by rw [erode_left, hStable])
  | succ j ih =>
      have hLoses : erode (left k (withDays l)).reverse ≠ (left k (withDays l)).reverse := by
        intro hEq
        rw [erode_left] at hEq
        have hStable := left_eq_of_next l (List.reverse_injective hEq) (j + 1)
        obtain ⟨x, hx, hDay⟩ := h.attained.resolve_left (by omega)
        have hShorter := length_left_lt (l := withDays l) (show k ≤ latest by omega)
          ⟨x, hx, by rw [hDay]; exact_mod_cast (by omega : k < latest), hDay.le⟩
        rw [hj] at hStable
        rw [hStable] at hShorter
        exact lt_irrefl _ hShorter
      rw [days_of_ne hLoses, erode_left, ih (by omega)]

/-- The number of days is the latest day. -/
theorem days_eq (l : List α) {latest : ℕ} (h : LatestDay (withDays l) latest) :
    days l.reverse = latest := by
  rw [← days_left l h latest (Nat.zero_add latest), left_zero]

end Erosion
