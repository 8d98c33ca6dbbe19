import Mathlib.Data.List.Basic
import Mathlib.Logic.Relation

/-! `reverse_string_if` of `myalgo.h`. An iterator is its position. Reading outside of the
range and moving an iterator outside of it fail. -/
namespace CppPerf.Sequences

variable {α : Type}

/-- The range `[first, last)` that the function is called with. -/
structure Bounds where
  first : Nat
  last : Nat

namespace Bounds

def next (b : Bounds) (i : Nat) : Option Nat := if i < b.last then some (i + 1) else none

def prev (b : Bounds) (i : Nat) : Option Nat := if b.first < i then some (i - 1) else none

def deref (b : Bounds) (elements : List α) (i : Nat) : Option α :=
  if b.first ≤ i ∧ i < b.last then elements[i]? else none

def iter_swap (b : Bounds) (elements : List α) (i j : Nat) : Option (List α) := do
  let x ← b.deref elements i
  let y ← b.deref elements j
  some ((elements.set i y).set j x)

end Bounds

structure Cursors (α : Type) where
  first : Nat
  last : Nat
  elements : List α

/-- The body of the loop. The flag is unset by `break`. -/
def round (cond : α → Bool) (b : Bounds) (c : Cursors α) : Option (Cursors α × Bool) := do
  let x ← b.deref c.elements c.first
  if !cond x then
    let first ← b.next c.first
    some (⟨first, c.last, c.elements⟩, true)
  else
    let y ← b.deref c.elements c.last
    if !cond y then
      let last ← b.prev c.last
      some (⟨c.first, last, c.elements⟩, true)
    else
      let elements ← b.iter_swap c.elements c.first c.last
      let first ← b.next c.first
      let last ← b.prev c.last
      some (⟨first, last, elements⟩, first != c.last)

def rounds (cond : α → Bool) (b : Bounds) : (fuel : Nat) → Cursors α → Option (List α)
  | 0, _ => none
  | fuel + 1, c =>
      if c.first = c.last then some c.elements
      else (round cond b c).bind fun (next, goesOn) =>
        if goesOn then rounds cond b fuel next else some next.elements

def reverse_string_if (fuel : Nat) (cond : α → Bool) (b : Bounds) (elements : List α) :
    Option (List α) :=
  if b.first = b.last then some elements
  else do
    let last ← b.prev b.last
    rounds cond b fuel ⟨b.first, last, elements⟩

/-- The elements that satisfy `cond` change places among themselves: their order is the
opposite one. -/
structure ReversedWhere (cond : α → Bool) (range result : List α) : Prop where
  places : result.map cond = range.map cond
  reversed : result.filter cond = (range.filter cond).reverse
  unchanged : ∀ (i : Nat) (x : α), range[i]? = some x → cond x = false → result[i]? = some x

variable {cond : α → Bool}

namespace ReversedWhere

theorem nil : ReversedWhere cond [] [] := ⟨rfl, rfl, by simp⟩

theorem single (x : α) : ReversedWhere cond [x] [x] := by
  refine ⟨rfl, ?_, fun i y h _ => h⟩
  cases h : cond x <;> simp [h]

theorem cons {range result : List α} (h : ReversedWhere cond range result) {x : α}
    (hx : cond x = false) : ReversedWhere cond (x :: range) (x :: result) := by
  refine ⟨by simp [h.places], by simp [hx, h.reversed], ?_⟩
  intro i y hy hCond
  cases i with
  | zero => exact hy
  | succ i => exact h.unchanged i y hy hCond

theorem length_eq {range result : List α} (h : ReversedWhere cond range result) :
    result.length = range.length := by
  simpa using congrArg List.length h.places

theorem concat {range result : List α} (h : ReversedWhere cond range result) {y : α}
    (hy : cond y = false) : ReversedWhere cond (range ++ [y]) (result ++ [y]) := by
  have hLength := h.length_eq
  refine ⟨by simp [h.places], by simp [hy, h.reversed], ?_⟩
  intro i x hx hCond
  rcases Nat.lt_or_ge i range.length with hi | hi
  · rw [List.getElem?_append_left hi] at hx
    rw [List.getElem?_append_left (hLength ▸ hi)]
    exact h.unchanged i x hx hCond
  · rw [List.getElem?_append_right hi] at hx
    rwa [List.getElem?_append_right (hLength ▸ hi), hLength]

/-- The two ends change places. -/
theorem ends {range result : List α} (h : ReversedWhere cond range result) {x y : α}
    (hx : cond x = true) (hy : cond y = true) :
    ReversedWhere cond (x :: range ++ [y]) (y :: result ++ [x]) := by
  have hLength := h.length_eq
  refine ⟨by simp [hx, hy, h.places], by simp [hx, hy, h.reversed], ?_⟩
  intro i z hz hCond
  cases i with
  | zero => simp_all
  | succ i =>
      simp only [List.cons_append, List.getElem?_cons_succ] at hz ⊢
      rcases Nat.lt_trichotomy i range.length with hi | hi | hi
      · rw [List.getElem?_append_left hi] at hz
        rw [List.getElem?_append_left (hLength ▸ hi)]
        exact h.unchanged i z hz hCond
      · subst hi
        simp_all
      · rw [List.getElem?_eq_none (by simp; omega)] at hz
        cases hz

/-- Places, order and the other elements determine the list. -/
theorem eq_of_same {first second : List α} (hPlaces : second.map cond = first.map cond)
    (hSame : second.filter cond = first.filter cond)
    (hUnchanged : ∀ (i : Nat) (x : α), first[i]? = some x → cond x = false →
      second[i]? = some x) : second = first := by
  induction first generalizing second with
  | nil => simpa using hPlaces
  | cons x rest ih =>
      cases second with
      | nil => simp at hPlaces
      | cons y others =>
          simp only [List.map_cons, List.cons.injEq] at hPlaces
          have hTail := fun i z => hUnchanged (i + 1) z
          cases hx : cond x with
          | false =>
              have hHead : y = x := by simpa using hUnchanged 0 x rfl hx
              subst hHead
              rw [ih hPlaces.2 (by simpa [hx] using hSame) hTail]
          | true =>
              rw [hx] at hPlaces
              simp only [List.filter_cons, hx, hPlaces.1, if_true, List.cons.injEq] at hSame
              rw [hSame.1, ih hPlaces.2 hSame.2 hTail]

/-- Twice the opposite order is the first one. -/
theorem twice {range result again : List α} (h : ReversedWhere cond range result)
    (hAgain : ReversedWhere cond result again) : again = range := by
  apply @eq_of_same _ cond _ _ (hAgain.places.trans h.places)
  · rw [hAgain.reversed, h.reversed, List.reverse_reverse]
  · intro i x hx hCond
    exact hAgain.unchanged i x (h.unchanged i x hx hCond) hCond

end ReversedWhere

namespace Bounds

variable {b : Bounds}

theorem next_eq {i : Nat} (h : i < b.last) : b.next i = some (i + 1) := if_pos h

theorem prev_eq {i : Nat} (h : b.first < i) : b.prev i = some (i - 1) := if_pos h

theorem deref_eq {left right : List α} {x : α} {i : Nat} (hi : i = left.length)
    (hFirst : b.first ≤ i) (hLast : i < b.last) : b.deref (left ++ x :: right) i = some x := by
  subst hi
  rw [deref, if_pos ⟨hFirst, hLast⟩, List.getElem?_append_right (Nat.le_refl _)]
  simp

theorem iter_swap_eq {left middle right : List α} {x y : α} {i j : Nat} (hi : i = left.length)
    (hj : j = left.length + 1 + middle.length) (hFirst : b.first ≤ i) (hLast : j < b.last) :
    b.iter_swap (left ++ x :: middle ++ y :: right) i j =
      some (left ++ y :: middle ++ x :: right) := by
  have hx : b.deref (left ++ x :: middle ++ y :: right) i = some x := by
    rw [List.append_assoc]
    exact deref_eq hi hFirst (by omega)
  have hy : b.deref (left ++ x :: middle ++ y :: right) j = some y :=
    deref_eq (by simp; omega) (by omega) hLast
  simp only [iter_swap, hx, hy, Option.bind_eq_bind, Option.bind_some]
  subst hi hj
  simp [Nat.add_assoc, Nat.add_comm 1]

end Bounds

section Loop

variable {b : Bounds} {left middle right : List α} {x y : α} {i j : Nat}

/-- The first element does not count. -/
theorem round_first (hi : i = left.length) (hFirst : b.first ≤ i) (hLast : i < b.last)
    (hx : cond x = false) :
    round cond b ⟨i, j, left ++ x :: right⟩ = some (⟨i + 1, j, left ++ x :: right⟩, true) := by
  simp [round, Bounds.deref_eq hi hFirst hLast, Bounds.next_eq hLast, hx]

/-- The first element counts, the last one does not. -/
theorem round_last (hi : i = left.length) (hj : j = left.length + 1 + middle.length)
    (hFirst : b.first ≤ i) (hLast : j < b.last) (hx : cond x = true) (hy : cond y = false) :
    round cond b ⟨i, j, left ++ x :: middle ++ y :: right⟩ =
      some (⟨i, j - 1, left ++ x :: middle ++ y :: right⟩, true) := by
  have hDerefX : b.deref (left ++ x :: middle ++ y :: right) i = some x := by
    rw [List.append_assoc]
    exact Bounds.deref_eq hi hFirst (by omega)
  have hDerefY : b.deref (left ++ x :: middle ++ y :: right) j = some y :=
    Bounds.deref_eq (by simp; omega) (by omega) hLast
  have hPrev : b.prev j = some (j - 1) := Bounds.prev_eq (by omega)
  simp only [round, hDerefX, hDerefY, hPrev, hx, hy, Option.bind_eq_bind, Option.bind_some]
  rfl

/-- Both count. -/
theorem round_swap (hi : i = left.length) (hj : j = left.length + 1 + middle.length)
    (hFirst : b.first ≤ i) (hLast : j < b.last) (hx : cond x = true) (hy : cond y = true) :
    round cond b ⟨i, j, left ++ x :: middle ++ y :: right⟩ =
      some (⟨i + 1, j - 1, left ++ y :: middle ++ x :: right⟩, i + 1 != j) := by
  have hDerefX : b.deref (left ++ x :: middle ++ y :: right) i = some x := by
    rw [List.append_assoc]
    exact Bounds.deref_eq hi hFirst (by omega)
  have hDerefY : b.deref (left ++ x :: middle ++ y :: right) j = some y :=
    Bounds.deref_eq (by simp; omega) (by omega) hLast
  have hSwap := @Bounds.iter_swap_eq _ b left middle right x y i j hi hj hFirst hLast
  have hNext : b.next i = some (i + 1) := Bounds.next_eq (by omega)
  have hPrev : b.prev j = some (j - 1) := Bounds.prev_eq (by omega)
  simp only [round, hDerefX, hDerefY, hSwap, hNext, hPrev, hx, hy, Option.bind_eq_bind,
    Option.bind_some]
  rfl

/-- The loop on what is left between the iterators, from the outside to the inside. -/
theorem rounds_eq {fuel : Nat} (hFuel : middle.length ≤ fuel) (hMiddle : middle ≠ [])
    (hi : i = left.length) (hj : j + 1 = left.length + middle.length)
    (hFirst : b.first ≤ i) (hLast : j < b.last) :
    ∃ result, rounds cond b fuel ⟨i, j, left ++ middle ++ right⟩ =
        some (left ++ result ++ right) ∧ ReversedWhere cond middle result := by
  induction fuel generalizing left middle right i j with
  | zero =>
      rw [Nat.le_zero, List.length_eq_zero_iff] at hFuel
      exact absurd hFuel hMiddle
  | succ fuel ih =>
      obtain ⟨x, rest, rfl⟩ := List.exists_cons_of_ne_nil hMiddle
      rw [List.length_cons] at hFuel hj
      rcases List.eq_nil_or_concat' rest with rfl | ⟨inner, y, rfl⟩
      · refine ⟨[x], ?_, ReversedWhere.single x⟩
        have hMet : i = j := by
          rw [List.length_nil] at hj
          omega
        rw [rounds, if_pos hMet]
      · rw [List.length_append, List.length_singleton] at hFuel hj
        have hNe : ¬i = j := by omega
        have hShape : left ++ x :: (inner ++ [y]) ++ right = left ++ x :: inner ++ y :: right := by
          simp
        rw [hShape, rounds, if_neg hNe]
        cases hx : cond x with
        | false =>
            obtain ⟨result, hRounds, hReversed⟩ := @ih (left ++ [x]) (inner ++ [y]) right (i + 1) j
              (by simp; omega) (by simp) (by simp [hi]) (by simp; omega) (by omega) hLast
            refine ⟨x :: result, ?_, hReversed.cons hx⟩
            rw [List.append_assoc, List.cons_append, round_first hi hFirst (by omega) hx]
            simpa using hRounds
        | true =>
            cases hy : cond y with
            | false =>
                obtain ⟨result, hRounds, hReversed⟩ := @ih left (x :: inner) (y :: right) i (j - 1)
                  (by simp; omega) (by simp) hi (by simp; omega) hFirst (by omega)
                refine ⟨result ++ [y], ?_, hReversed.concat hy⟩
                rw [round_last hi (by omega) hFirst hLast hx hy]
                simpa using hRounds
            | true =>
                rw [round_swap hi (by omega) hFirst hLast hx hy]
                rcases List.eq_nil_or_concat' inner with rfl | ⟨_, _, hInner⟩
                · refine ⟨[y, x], ?_, ReversedWhere.nil.ends hx hy⟩
                  rw [List.length_nil] at hj
                  have hMeet : i + 1 = j := by omega
                  simp [hMeet]
                · have hPos : 0 < inner.length := by simp [hInner]
                  obtain ⟨result, hRounds, hReversed⟩ :=
                    @ih (left ++ [y]) inner (x :: right) (i + 1) (j - 1)
                      (by omega) (by rw [hInner]; simp) (by simp [hi]) (by simp; omega)
                      (by omega) (by omega)
                  refine ⟨y :: result ++ [x], ?_, hReversed.ends hx hy⟩
                  have hApart : (i + 1 != j) = true := by
                    rw [bne_iff_ne]
                    omega
                  simpa [hApart] using hRounds

end Loop

/-- The loop goes from one state to the next one. -/
def Goes (cond : α → Bool) (b : Bounds) (c d : Cursors α) : Prop :=
  c.first ≠ c.last ∧ round cond b c = some (d, true)

structure InOrder (b : Bounds) (c : Cursors α) : Prop where
  first_le : b.first ≤ c.first
  le : c.first ≤ c.last
  last_lt : c.last < b.last

theorem Bounds.next_eq_some {b : Bounds} {i k : Nat} (h : b.next i = some k) : k = i + 1 := by
  rw [Bounds.next] at h
  split_ifs at h
  exact (Option.some.inj h).symm

theorem Bounds.prev_eq_some {b : Bounds} {i k : Nat} (h : b.prev i = some k) : k = i - 1 := by
  rw [Bounds.prev] at h
  split_ifs at h
  exact (Option.some.inj h).symm

/-- What one round does to the iterators. -/
theorem round_cases {b : Bounds} {c d : Cursors α} {goesOn : Bool}
    (h : round cond b c = some (d, goesOn)) :
    (d.first = c.first + 1 ∧ d.last = c.last) ∨ (d.first = c.first ∧ d.last = c.last - 1) ∨
      (d.first = c.first + 1 ∧ d.last = c.last - 1 ∧ goesOn = (d.first != c.last)) := by
  simp only [round, Option.bind_eq_bind, Option.bind_eq_some_iff] at h
  obtain ⟨x, -, h⟩ := h
  cases hx : cond x with
  | false =>
      simp only [hx, Bool.not_false, if_true, Option.bind_eq_some_iff] at h
      obtain ⟨first, hNext, hEq⟩ := h
      cases hEq
      exact Or.inl ⟨Bounds.next_eq_some hNext, rfl⟩
  | true =>
      simp only [hx, Bool.not_true, Bool.false_eq_true, if_false, Option.bind_eq_some_iff] at h
      obtain ⟨y, -, h⟩ := h
      cases hy : cond y with
      | false =>
          simp only [hy, Bool.not_false, if_true, Option.bind_eq_some_iff] at h
          obtain ⟨last, hPrev, hEq⟩ := h
          cases hEq
          exact Or.inr (Or.inl ⟨rfl, Bounds.prev_eq_some hPrev⟩)
      | true =>
          simp only [hy, Bool.not_true, Bool.false_eq_true, if_false, Option.bind_eq_some_iff] at h
          obtain ⟨elements, -, first, hNext, last, hPrev, hEq⟩ := h
          cases hEq
          exact Or.inr (Or.inr ⟨Bounds.next_eq_some hNext, Bounds.prev_eq_some hPrev, rfl⟩)

theorem InOrder.goes {b : Bounds} {c d : Cursors α} (h : InOrder b c) (hGoes : Goes cond b c d) :
    InOrder b d := by
  obtain ⟨hFirst, hLe, hLast⟩ := h
  obtain ⟨hNe, hRound⟩ := hGoes
  rcases round_cases hRound with ⟨hF, hL⟩ | ⟨hF, hL⟩ | ⟨hF, hL, hApart⟩
  · exact ⟨by omega, by omega, by omega⟩
  · exact ⟨by omega, by omega, by omega⟩
  · have hNotMet : d.first ≠ c.last := by simpa using hApart.symm
    exact ⟨by omega, by omega, by omega⟩

/-- In every state of the loop the iterators are in the range and have not passed each
other. -/
theorem inOrder_of_goes {b : Bounds} {c d : Cursors α} (h : InOrder b c)
    (hRun : Relation.ReflTransGen (Goes cond b) c d) : InOrder b d := by
  induction hRun with
  | refl => exact h
  | tail _ hGoes ih => exact ih.goes hGoes

theorem reverse_string_if_some (cond : α → Bool) (before range after : List α) {fuel : Nat}
    (hFuel : range.length ≤ fuel) :
    ∃ result, reverse_string_if fuel cond ⟨before.length, before.length + range.length⟩
        (before ++ range ++ after) = some (before ++ result ++ after) ∧
      ReversedWhere cond range result := by
  cases range with
  | nil => exact ⟨[], if_pos rfl, ReversedWhere.nil⟩
  | cons x rest =>
      have hLength : 0 < (x :: rest).length := by simp
      obtain ⟨result, hRounds, hReversed⟩ := @rounds_eq α cond
        ⟨before.length, before.length + (x :: rest).length⟩ before (x :: rest) after before.length
        (before.length + (x :: rest).length - 1) fuel hFuel (by simp) rfl (by omega)
        (Nat.le_refl _) (by simp)
      refine ⟨result, ?_, hReversed⟩
      rw [reverse_string_if, if_neg (by simp), Bounds.prev_eq (by simp)]
      exact hRounds

/-- On every range, in a larger container or not. The numbers are rounds of the loop that
are not needed. -/
theorem reverse_string_if_spec (cond : α → Bool) (before range after : List α)
    (extra again : Nat) :
    ∃ result, reverse_string_if (range.length + extra) cond
        ⟨before.length, before.length + range.length⟩ (before ++ range ++ after) =
          some (before ++ result ++ after) ∧
      ReversedWhere cond range result ∧
      reverse_string_if (range.length + again) cond
        ⟨before.length, before.length + range.length⟩ (before ++ result ++ after) =
          some (before ++ range ++ after) ∧
      (range ≠ [] → ∀ c, Relation.ReflTransGen
          (Goes cond ⟨before.length, before.length + range.length⟩)
          ⟨before.length, before.length + range.length - 1, before ++ range ++ after⟩ c →
        InOrder ⟨before.length, before.length + range.length⟩ c) := by
  obtain ⟨result, hFirst, hReversed⟩ := reverse_string_if_some cond before range after
    (Nat.le_add_right range.length extra)
  have hLength := hReversed.length_eq
  obtain ⟨range', hSecond, hReversed'⟩ := @reverse_string_if_some α cond before result after
    (range.length + again) (by omega)
  have hRange := hReversed.twice hReversed'
  rw [hLength, hRange] at hSecond
  refine ⟨result, hFirst, hReversed, hSecond, fun hNe c hRun => inOrder_of_goes ?_ hRun⟩
  have hPos := List.length_pos_of_ne_nil hNe
  exact ⟨Nat.le_refl _, by simp; omega, by simp; omega⟩

example : reverse_string_if 5 (fun c => c != '-') ⟨0, 5⟩ ['a', '-', 'b', 'c', '-'] =
    some ['c', '-', 'b', 'a', '-'] := by decide

end CppPerf.Sequences
