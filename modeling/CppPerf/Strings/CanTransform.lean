import Mathlib.Data.List.Forall2
import Mathlib.Logic.Relation

/-! `Teaser::canTransform` of `leetcodecpp.cpp`: whether moves of `XL` to `LX` and of `RX` to `XR`
lead from one string to the other. Positions are unbounded. -/
namespace CppPerf.Strings.CanTransform

open Relation

/-- The first letter that is not `X`, from `pos` on, and -1 if there is none. -/
def skipFrom : (rest : List Char) → (pos : Int) → Int
  | [], _ => -1
  | c :: rest, pos => if c ≠ 'X' then pos else skipFrom rest (pos + 1)

def skipX (s : List Char) (pos : Int) : Int := skipFrom (s.drop pos.toNat) pos

/-- The loop of `canTransform`. Each turn takes a letter of `start`. -/
def loop (start finish : List Char) : (fuel : Nat) → (i j : Int) → Option Bool
  | 0, _, _ => none
  | fuel + 1, i, j =>
      if 0 ≤ i ∧ 0 ≤ j then do
        let a ← start[i.toNat]?
        let b ← finish[j.toNat]?
        if a ≠ b then return false
        if a = 'L' ∧ i < j then return false
        if a = 'R' ∧ j < i then return false
        loop start finish fuel (skipX start (i + 1)) (skipX finish (j + 1))
      else some (decide (i = j))

def canTransform (start finish : List Char) : Option Bool :=
  if start.length ≠ finish.length then some false
  else loop start finish (start.length + 1) (skipX start 0) (skipX finish 0)

/-! The loop compares the letters that are not `X`, each with its position. -/

/-- The letters that are not `X` of a string that begins at position `n`. -/
def marks : (n : Nat) → List Char → List (Nat × Char)
  | _, [] => []
  | n, c :: s => if c = 'X' then marks (n + 1) s else (n, c) :: marks (n + 1) s

/-- An `L` of the second string is not on the right, and an `R` not on the left. -/
def Ahead (m k : Nat × Char) : Prop :=
  m.2 = k.2 ∧ (m.2 = 'L' → k.1 ≤ m.1) ∧ (m.2 = 'R' → m.1 ≤ k.1)

instance : DecidableRel Ahead := fun m k =>
  inferInstanceAs (Decidable (m.2 = k.2 ∧ (m.2 = 'L' → k.1 ≤ m.1) ∧ (m.2 = 'R' → m.1 ≤ k.1)))

variable {s t u start finish : List Char} {n i j fuel : Nat} {c d : Char}
  {rest : List (Nat × Char)}

/-- The position of the first letter, and -1 if there is none. -/
def first : List (Nat × Char) → Int
  | [] => -1
  | m :: _ => m.1

theorem skipFrom_eq (s : List Char) (n : Nat) : skipFrom s n = first (marks n s) := by
  induction s generalizing n with
  | nil => rfl
  | cons c s ih =>
      rw [skipFrom, marks]
      by_cases hX : c = 'X'
      · rw [if_neg (not_not.mpr hX), if_pos hX, ← ih]
        rfl
      · rw [if_pos hX, if_neg hX]
        rfl

theorem skipX_eq (s : List Char) (n : Nat) : skipX s n = first (marks n (s.drop n)) :=
  skipFrom_eq (s.drop n) n

/-- The first letter is in the string, and the others are behind it. -/
theorem marks_eq_cons {m : Nat × Char} (h : marks n (s.drop n) = m :: rest) :
    s[m.1]? = some m.2 ∧ rest = marks (m.1 + 1) (s.drop (m.1 + 1)) := by
  induction hLeft : s.length - n generalizing n with
  | zero =>
      rw [List.drop_of_length_le (by omega)] at h
      cases h
  | succ k ih =>
      have hLt : n < s.length := by omega
      rw [List.drop_eq_getElem_cons hLt, marks] at h
      split_ifs at h with hX
      · exact ih h (by omega)
      · rw [List.cons.injEq] at h
        obtain ⟨rfl, hRest⟩ := h
        exact ⟨List.getElem?_eq_getElem hLt, hRest.symm⟩

theorem marks_length_le (n : Nat) (s : List Char) : (marks n s).length ≤ s.length := by
  induction s generalizing n with
  | nil => exact Nat.le_refl 0
  | cons c s ih =>
      rw [marks]
      split_ifs
      · exact Nat.le_succ_of_le (ih _)
      · exact Nat.succ_le_succ (ih _)

/-- Where one string has no letter left, the other one must have none either. -/
theorem loop_stop {x y : Int} (fuel : Nat) (hStop : ¬(0 ≤ x ∧ 0 ≤ y)) :
    loop start finish (fuel + 1) x y = some (decide (x = y)) := by
  rw [loop, if_neg hStop]

/-- Two letters are compared, and the loop goes on behind them. -/
theorem loop_step {m k : Nat × Char} (fuel : Nat) (hm : start[m.1]? = some m.2)
    (hk : finish[k.1]? = some k.2) :
    loop start finish (fuel + 1) m.1 k.1 =
      if Ahead m k then loop start finish fuel (skipX start (m.1 + 1)) (skipX finish (k.1 + 1))
      else some false := by
  rw [loop, if_pos ⟨Int.natCast_nonneg _, Int.natCast_nonneg _⟩, Int.toNat_natCast,
    Int.toNat_natCast, hm, hk]
  simp only [Option.bind_eq_bind, Option.bind_some, Int.ofNat_lt]
  by_cases hSame : m.2 = k.2
  · by_cases hLeft : m.2 = 'L' ∧ m.1 < k.1
    · have hNot : ¬Ahead m k := fun h => absurd (h.2.1 hLeft.1) (Nat.not_le_of_lt hLeft.2)
      rw [if_neg (not_not.mpr hSame), if_pos hLeft, if_neg hNot]
      rfl
    · by_cases hRight : m.2 = 'R' ∧ k.1 < m.1
      · have hNot : ¬Ahead m k := fun h => absurd (h.2.2 hRight.1) (Nat.not_le_of_lt hRight.2)
        rw [if_neg (not_not.mpr hSame), if_neg hLeft, if_pos hRight, if_neg hNot]
        rfl
      · have hAhead : Ahead m k := ⟨hSame, fun h => Nat.le_of_not_lt fun hLt => hLeft ⟨h, hLt⟩,
          fun h => Nat.le_of_not_lt fun hLt => hRight ⟨h, hLt⟩⟩
        rw [if_neg (not_not.mpr hSame), if_neg hLeft, if_neg hRight, if_pos hAhead]
  · rw [if_pos hSame, if_neg fun h : Ahead m k => hSame h.1]
    rfl

/-- From any two positions the loop compares the letters that are left. -/
theorem loop_eq (start finish : List Char) (n k : Nat)
    (hFuel : (marks n (start.drop n)).length < fuel) :
    ∃ b, loop start finish fuel (skipX start n) (skipX finish k) = some b ∧
      (b = true ↔ List.Forall₂ Ahead (marks n (start.drop n)) (marks k (finish.drop k))) := by
  induction fuel generalizing n k with
  | zero => exact absurd hFuel (Nat.not_lt_zero _)
  | succ fuel ih =>
      rw [skipX_eq, skipX_eq]
      cases hStart : marks n (start.drop n) with
      | nil =>
          rw [loop_stop fuel fun h => absurd h.1 (by decide)]
          cases hFinish : marks k (finish.drop k) with
          | nil => exact ⟨true, rfl, iff_of_true rfl List.Forall₂.nil⟩
          | cons m rest => exact ⟨false, rfl, iff_of_false Bool.false_ne_true nofun⟩
      | cons m rest =>
          obtain ⟨hm, hRest⟩ := marks_eq_cons hStart
          cases hFinish : marks k (finish.drop k) with
          | nil =>
              rw [loop_stop fuel fun h => absurd h.2 (by decide)]
              exact ⟨false, rfl, iff_of_false Bool.false_ne_true nofun⟩
          | cons m' rest' =>
              obtain ⟨hm', hRest'⟩ := marks_eq_cons hFinish
              rw [first, first, loop_step fuel hm hm', List.forall₂_cons]
              split_ifs with hAhead
              · rw [and_iff_right hAhead, hRest, hRest']
                rw [hStart, hRest, List.length_cons] at hFuel
                exact_mod_cast ih (m.1 + 1) (m'.1 + 1) (Nat.lt_of_succ_lt_succ hFuel)
              · exact ⟨false, rfl, iff_of_false Bool.false_ne_true fun h => hAhead h.1⟩

theorem canTransform_marks (start finish : List Char) :
    ∃ b, canTransform start finish = some b ∧ (b = true ↔
      start.length = finish.length ∧ List.Forall₂ Ahead (marks 0 start) (marks 0 finish)) := by
  rw [canTransform]
  by_cases hLength : start.length = finish.length
  · rw [if_neg (not_not.mpr hLength)]
    obtain ⟨b, hLoop, hIff⟩ := loop_eq start finish 0 0
      (Nat.lt_succ_of_le (marks_length_le 0 start))
    exact ⟨b, hLoop, hIff.trans (and_iff_right hLength).symm⟩
  · rw [if_pos hLength]
    exact ⟨false, rfl, iff_of_false Bool.false_ne_true fun h => hLength h.1⟩

/-! Moves keep the order of the letters, take an `L` to the left and an `R` to the right. -/

inductive Move : List Char → List Char → Prop where
  | left (s t : List Char) : Move (s ++ 'X' :: 'L' :: t) (s ++ 'L' :: 'X' :: t)
  | right (s t : List Char) : Move (s ++ 'R' :: 'X' :: t) (s ++ 'X' :: 'R' :: t)

theorem Ahead.refl (m : Nat × Char) : Ahead m m :=
  ⟨rfl, fun _ => Nat.le_refl _, fun _ => Nat.le_refl _⟩

theorem Ahead.trans {m k l : Nat × Char} (h : Ahead m k) (hNext : Ahead k l) : Ahead m l :=
  ⟨h.1.trans hNext.1, fun hm => Nat.le_trans (hNext.2.1 (h.1 ▸ hm)) (h.2.1 hm),
    fun hm => Nat.le_trans (h.2.2 hm) (hNext.2.2 (h.1 ▸ hm))⟩

theorem forall₂_ahead_trans {l l' l'' : List (Nat × Char)} (h : List.Forall₂ Ahead l l')
    (hNext : List.Forall₂ Ahead l' l'') : List.Forall₂ Ahead l l'' := by
  induction h generalizing l'' with
  | nil => exact hNext
  | cons hHead _ ih =>
      cases hNext with
      | cons hHead' hTail' => exact List.Forall₂.cons (hHead.trans hHead') (ih hTail')

theorem forall₂_ahead_refl (l : List (Nat × Char)) : List.Forall₂ Ahead l l := by
  induction l with
  | nil => exact List.Forall₂.nil
  | cons m l ih => exact List.Forall₂.cons (Ahead.refl m) ih

theorem marks_append (n : Nat) (s t : List Char) :
    marks n (s ++ t) = marks n s ++ marks (n + s.length) t := by
  induction s generalizing n with
  | nil => rfl
  | cons c s ih =>
      rw [List.cons_append, marks, marks, ih, List.length_cons, Nat.add_assoc, Nat.add_comm 1]
      split_ifs <;> rfl

theorem Move.length_eq (h : Move s t) : s.length = t.length := by
  cases h <;> simp

theorem Move.marks (h : Move s t) : List.Forall₂ Ahead (marks 0 s) (marks 0 t) := by
  cases h with
  | left s t =>
      rw [marks_append, marks_append]
      refine List.rel_append (forall₂_ahead_refl _) ?_
      refine List.Forall₂.cons ⟨rfl, fun _ => Nat.le_succ _, fun h => ?_⟩ (forall₂_ahead_refl _)
      cases h
  | right s t =>
      rw [marks_append, marks_append]
      refine List.rel_append (forall₂_ahead_refl _) ?_
      refine List.Forall₂.cons ⟨rfl, fun h => ?_, fun _ => Nat.le_succ _⟩ (forall₂_ahead_refl _)
      cases h

theorem marks_of_moves (h : ReflTransGen Move s t) :
    s.length = t.length ∧ List.Forall₂ Ahead (marks 0 s) (marks 0 t) := by
  induction h with
  | refl => exact ⟨rfl, forall₂_ahead_refl _⟩
  | tail _ hMove ih =>
      exact ⟨ih.1.trans hMove.length_eq, forall₂_ahead_trans ih.2 hMove.marks⟩

/-! Conversely, the first letters are brought to one place, and the rest is moved behind them. -/

theorem Move.cons (c : Char) (h : Move s t) : Move (c :: s) (c :: t) := by
  cases h with
  | left s t => exact Move.left (c :: s) t
  | right s t => exact Move.right (c :: s) t

theorem moves_cons (c : Char) (h : ReflTransGen Move s t) :
    ReflTransGen Move (c :: s) (c :: t) :=
  ReflTransGen.lift (List.cons c) (fun _ _ => Move.cons c) _ _ h

theorem moves_left (k : Nat) (t : List Char) :
    ReflTransGen Move (List.replicate k 'X' ++ 'L' :: t) ('L' :: (List.replicate k 'X' ++ t)) := by
  induction k with
  | zero => exact ReflTransGen.refl
  | succ k ih =>
      rw [List.replicate_succ, List.cons_append, List.cons_append]
      exact (moves_cons 'X' ih).tail (Move.left [] _)

theorem moves_right (k : Nat) (t : List Char) :
    ReflTransGen Move ('R' :: (List.replicate k 'X' ++ t)) (List.replicate k 'X' ++ 'R' :: t) := by
  induction k with
  | zero => exact ReflTransGen.refl
  | succ k ih =>
      rw [List.replicate_succ, List.cons_append, List.cons_append]
      exact ReflTransGen.head (Move.right [] _) (moves_cons 'X' ih)

theorem marks_replicate (n k : Nat) (t : List Char) :
    marks n (List.replicate k 'X' ++ t) = marks (n + k) t := by
  induction k generalizing n with
  | zero => rfl
  | succ k ih =>
      rw [List.replicate_succ, List.cons_append, marks, if_pos rfl, ih, Nat.add_assoc,
        Nat.add_comm 1]

/-- In front of the first letter there is nothing but `X`. -/
theorem exists_replicate {m : Nat × Char} (h : marks n s = m :: rest) :
    ∃ k t, s = List.replicate k 'X' ++ m.2 :: t ∧ m.1 = n + k ∧ m.2 ≠ 'X' ∧
      rest = marks (n + k + 1) t := by
  induction s generalizing n with
  | nil => cases h
  | cons c s ih =>
      rw [marks] at h
      split_ifs at h with hX
      · obtain ⟨k, t, rfl, hPos, hLetter, hRest⟩ := ih h
        refine ⟨k + 1, t, by rw [hX]; rfl, by omega, hLetter, ?_⟩
        rw [hRest, Nat.add_right_comm n 1 k, ← Nat.add_assoc]
      · rw [List.cons.injEq] at h
        obtain ⟨rfl, rfl⟩ := h
        exact ⟨0, s, rfl, rfl, hX, rfl⟩

theorem first_mark {m : Nat × Char} (h : marks n s = m :: rest) :
    n ≤ m.1 ∧ m.2 ∈ s ∧ m.2 ≠ 'X' := by
  obtain ⟨k, t, rfl, hPos, hLetter, -⟩ := exists_replicate h
  exact ⟨by omega, by simp, hLetter⟩

def Letters (s : List Char) : Prop := ∀ c ∈ s, c = 'L' ∨ c = 'R' ∨ c = 'X'

/-- An `L` that the second string has in front comes from behind some `X`. -/
theorem moves_first_left {m : Nat × Char} (hFirst : marks (n + 1) s = m :: rest)
    (hLeft : m.2 = 'L') :
    ∃ u, u.length = s.length ∧ (Letters s → Letters u) ∧ marks (n + 1) u = rest ∧
      ReflTransGen Move ('X' :: s) ('L' :: u) := by
  obtain ⟨k, v, rfl, -, -, rfl⟩ := exists_replicate hFirst
  rw [hLeft]
  refine ⟨List.replicate (k + 1) 'X' ++ v, by simp; omega, ?_, ?_, ?_⟩
  · intro hLetters c hc
    rcases List.mem_append.mp hc with hX | hRest
    · exact Or.inr (Or.inr (List.eq_of_mem_replicate hX))
    · exact hLetters c (List.mem_append_right _ (List.mem_cons_of_mem _ hRest))
  · rw [marks_replicate, Nat.add_assoc, Nat.add_assoc, Nat.add_assoc]
  · exact moves_left (k + 1) v

/-- An `R` that the first string has in front goes behind some `X`. -/
theorem moves_first_right {m : Nat × Char} (hFirst : marks (n + 1) t = m :: rest)
    (hRight : m.2 = 'R') :
    ∃ u, u.length = t.length ∧ marks (n + 1) u = rest ∧
      ReflTransGen Move ('R' :: u) ('X' :: t) := by
  obtain ⟨k, v, rfl, -, -, rfl⟩ := exists_replicate hFirst
  rw [hRight]
  refine ⟨List.replicate (k + 1) 'X' ++ v, by simp; omega, ?_, moves_right (k + 1) v⟩
  rw [marks_replicate, Nat.add_assoc, Nat.add_assoc, Nat.add_assoc]

theorem moves_of_marks (n : Nat) (hLength : s.length = t.length) (hLetters : Letters s)
    (h : List.Forall₂ Ahead (marks n s) (marks n t)) : ReflTransGen Move s t := by
  induction hk : s.length generalizing s t n with
  | zero =>
      obtain rfl := List.length_eq_zero_iff.mp hk
      obtain rfl := List.length_eq_zero_iff.mp (hLength ▸ hk)
      exact ReflTransGen.refl
  | succ k ih =>
      obtain ⟨c, s, rfl⟩ := List.exists_cons_of_length_eq_add_one hk
      obtain ⟨d, t, rfl⟩ := List.exists_cons_of_length_eq_add_one (hLength ▸ hk)
      obtain ⟨hFirst, hLetters⟩ := List.forall_mem_cons.mp hLetters
      rw [List.length_cons] at hk
      rw [List.length_cons, List.length_cons] at hLength
      rw [marks, marks] at h
      by_cases hc : c = 'X'
      · by_cases hd : d = 'X'
        · rw [if_pos hc, if_pos hd] at h
          rw [hc, hd]
          exact moves_cons 'X' (ih (n + 1) (by omega) hLetters h (by omega))
        · -- The first letter of the first string has to come to the front.
          rw [if_pos hc, if_neg hd] at h
          cases hMarks : marks (n + 1) s with
          | nil =>
              rw [hMarks] at h
              cases h
          | cons m rest =>
              rw [hMarks, List.forall₂_cons] at h
              obtain ⟨⟨hSame, -, hRight⟩, hRest⟩ := h
              obtain ⟨hPos, hMem, hNot⟩ := first_mark hMarks
              have hLeft : m.2 = 'L' := by
                rcases hLetters _ hMem with hL | hR | hX
                · exact hL
                · exact absurd (hRight hR) (by simp only; omega)
                · exact absurd hX hNot
              obtain ⟨u, hu, hInherit, hMarks', hMoves⟩ := moves_first_left hMarks hLeft
              rw [hc, ← show m.2 = d from hSame, hLeft]
              exact hMoves.trans (moves_cons 'L'
                (ih (n + 1) (by omega) (hInherit hLetters) (hMarks'.symm ▸ hRest) (by omega)))
      · by_cases hd : d = 'X'
        · -- The letter in front of the first string has to go behind the `X`.
          rw [if_neg hc, if_pos hd] at h
          cases hMarks : marks (n + 1) t with
          | nil =>
              rw [hMarks] at h
              cases h
          | cons m rest =>
              rw [hMarks, List.forall₂_cons] at h
              obtain ⟨⟨hSame, hLeft, -⟩, hRest⟩ := h
              obtain ⟨hPos, -⟩ := first_mark hMarks
              have hRight : c = 'R' := by
                rcases hFirst with hL | hR | hX
                · exact absurd (hLeft hL) (by simp only; omega)
                · exact hR
                · exact absurd hX hc
              obtain ⟨u, hu, hMarks', hMoves⟩ := moves_first_right hMarks (hSame.symm.trans hRight)
              rw [hd, hRight]
              exact (moves_cons 'R'
                (ih (n + 1) (by omega) hLetters (hMarks'.symm ▸ hRest) (by omega))).trans hMoves
        · rw [if_neg hc, if_neg hd, List.forall₂_cons] at h
          obtain ⟨⟨hSame, -⟩, hRest⟩ := h
          rw [show c = d from hSame]
          exact moves_cons d (ih (n + 1) (by omega) hLetters hRest (by omega))

def nine : List Char := ['R', 'X', 'X', 'L', 'R', 'X', 'R', 'X', 'L']

def moved : List Char := ['X', 'R', 'L', 'X', 'X', 'R', 'R', 'L', 'X']

example : canTransform nine moved = some true := by decide

end CppPerf.Strings.CanTransform
