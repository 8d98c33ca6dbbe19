import CppPerf.Semantics.GameTree
import Mathlib.Data.Fintype.Card
import Mathlib.Data.Fintype.Prod
import Mathlib.Data.Set.Finite.Lemmas
import Mathlib.Data.Set.Finite.Range
import Mathlib.Order.Bounds.Basic

/-! `TicTacToeBoard` of `TicTacToe.cpp`. The numbers of `minimax` are integers: they stay between
-10000 and 10000. -/
namespace CppPerf.Games

open GameTree

structure TicTacToeBoard where
  board : Fin 9 → Char

namespace TicTacToeBoard

def PLAYER : Char := 'X'

def COMPUTER : Char := 'O'

def construct : TicTacToeBoard := ⟨fun _ => ' '⟩

def cell (row col : Fin 3) : Fin 9 := ⟨row * 3 + col, by omega⟩

def set_move (b : TicTacToeBoard) (piece : Char) (row col : Fin 3) : TicTacToeBoard :=
  ⟨Function.update b.board (cell row col) piece⟩

def row_won (b : TicTacToeBoard) (r : Fin 3) : Bool :=
  b.board (cell r 1) = b.board (cell r 0) ∧ b.board (cell r 2) = b.board (cell r 0) ∧
    b.board (cell r 0) ≠ ' '

def col_won (b : TicTacToeBoard) (c : Fin 3) : Bool :=
  b.board (cell 1 c) = b.board (cell 0 c) ∧ b.board (cell 2 c) = b.board (cell 0 c) ∧
    b.board (cell 0 c) ≠ ' '

def forward_diag_won (b : TicTacToeBoard) : Bool :=
  b.board 2 = b.board 4 ∧ b.board 2 = b.board 6 ∧ b.board 2 ≠ ' '

def backward_diag_won (b : TicTacToeBoard) : Bool :=
  b.board 0 = b.board 4 ∧ b.board 0 = b.board 8 ∧ b.board 4 ≠ ' '

def game_over (b : TicTacToeBoard) : Bool := (List.finRange 9).all fun i => b.board i ≠ ' '

def is_blank (b : TicTacToeBoard) (r c : Fin 3) : Bool := b.board (cell r c) = ' '

def score (side : Char) : Int := if side = PLAYER then 10 else -10

/-- 10 where the player has won, -10 where the computer has. -/
def evaluate (b : TicTacToeBoard) : Int :=
  let line := (List.finRange 3).findSome? fun i =>
    if b.row_won i then some (score (b.board (cell i 0)))
    else if b.col_won i then some (score (b.board (cell 0 i)))
    else none
  match line with
  | some won => won
  | none => if b.forward_diag_won ∨ b.backward_diag_won then score (b.board 4) else 0

/-- The variables of `minimax` while it tries the moves. -/
structure Search where
  score : Int
  alpha : Int
  beta : Int
  board : TicTacToeBoard

/-- The player who is to move. -/
def mover (isMax : Bool) : Char := if isMax then PLAYER else COMPUTER

/-- What is computed from the score of a move. -/
def Search.update (s : Search) (isMax : Bool) (next_score : Int) : Search :=
  let score := if isMax then max s.score next_score else min s.score next_score
  { s with
    score
    alpha := if isMax then max s.alpha score else s.alpha
    beta := if isMax then s.beta else min score s.beta }

/-- The moves of a row. A closed window ends the row. -/
def try_row (minimax : TicTacToeBoard → (alpha beta : Int) → Option (Int × TicTacToeBoard))
    (isMax : Bool) (r : Fin 3) : List (Fin 3) → Search → Option Search
  | [], s => some s
  | c :: cols, s =>
      if s.board.is_blank r c then do
        let (next_score, board) ← minimax (s.board.set_move (mover isMax) r c) s.alpha s.beta
        let s := { s.update isMax next_score with board := board.set_move ' ' r c }
        if s.beta ≤ s.alpha then some s else try_row minimax isMax r cols s
      else try_row minimax isMax r cols s

def minimax : (fuel : Nat) → (board : TicTacToeBoard) → (depth : Int) → (isMax : Bool) →
    (alpha beta : Int) → Option (Int × TicTacToeBoard)
  | 0, _, _, _, _, _ => none
  | fuel + 1, board, depth, isMax, alpha, beta =>
      if board.evaluate = 10 then some (board.evaluate - depth, board)
      else if board.evaluate = -10 then some (board.evaluate + depth, board)
      else if board.game_over then some (0, board)
      else do
        let s ← (List.finRange 3).foldlM
          (fun s r => try_row (fun b => minimax fuel b (depth + 1) !isMax) isMax r
            (List.finRange 3) s)
          ⟨if isMax then -1000 else 1000, alpha, beta, board⟩
        return (s.score, s.board)

/-- The best move so far. -/
structure Choice where
  score : Int
  best : Fin 3 × Fin 3
  board : TicTacToeBoard

/-- The board has nine cells: ten calls are the deepest recursion. -/
def choose (isMax : Bool) (s : Choice) (r c : Fin 3) : Option Choice :=
  if s.board.is_blank r c then do
    let (next_score, board) ← minimax 10 (s.board.set_move (mover isMax) r c) 0 (!isMax)
      (-10000) 10000
    let board := board.set_move ' ' r c
    if isMax ∧ next_score > s.score ∨ ¬isMax ∧ next_score < s.score then
      return ⟨next_score, (r, c), board⟩
    else return { s with board }
  else some s

def find_best_move (isMax : Bool) (board : TicTacToeBoard) : Option Choice :=
  (List.finRange 3).foldlM
    (fun s r => (List.finRange 3).foldlM (fun s c => choose isMax s r c) s)
    ⟨if isMax then -10000 else 10000, (0, 0), board⟩

section Values

variable {b : TicTacToeBoard} {depth v w : Int} {isMax : Bool}

/-- The values of all moves. -/
def outcomes (b : TicTacToeBoard) (f : Fin 3 → Fin 3 → Int) : Set Int :=
  {v | ∃ r c, b.is_blank r c = true ∧ v = f r c}

/-- The value of a position, without a window. -/
inductive Value : TicTacToeBoard → (depth : Int) → (isMax : Bool) → Int → Prop
  | won {b : TicTacToeBoard} {depth : Int} {isMax : Bool} : b.evaluate = 10 →
      Value b depth isMax (10 - depth)
  | lost {b : TicTacToeBoard} {depth : Int} {isMax : Bool} : b.evaluate = -10 →
      Value b depth isMax (-10 + depth)
  | draw {b : TicTacToeBoard} {depth : Int} {isMax : Bool} : b.evaluate = 0 → b.game_over = true →
      Value b depth isMax 0
  | max {b : TicTacToeBoard} {depth v : Int} (f : Fin 3 → Fin 3 → Int) : b.evaluate = 0 →
      b.game_over = false →
      (∀ r c, b.is_blank r c = true → Value (b.set_move PLAYER r c) (depth + 1) false (f r c)) →
      IsGreatest (b.outcomes f) v → Value b depth true v
  | min {b : TicTacToeBoard} {depth v : Int} (f : Fin 3 → Fin 3 → Int) : b.evaluate = 0 →
      b.game_over = false →
      (∀ r c, b.is_blank r c = true → Value (b.set_move COMPUTER r c) (depth + 1) true (f r c)) →
      IsLeast (b.outcomes f) v → Value b depth false v

theorem cell_surjective (i : Fin 9) : ∃ r c, cell r c = i := by
  revert i
  decide

theorem game_over_eq_false_iff : b.game_over = false ↔ ∃ r c, b.is_blank r c = true := by
  simp only [game_over, is_blank, List.all_eq_false, List.mem_finRange, true_and,
    decide_eq_true_eq, ne_eq, not_not]
  constructor
  · rintro ⟨i, hi⟩
    obtain ⟨r, c, rfl⟩ := cell_surjective i
    exact ⟨r, c, hi⟩
  · rintro ⟨r, c, hBlank⟩
    exact ⟨cell r c, hBlank⟩

theorem score_eq (side : Char) : score side = 10 ∨ score side = -10 := by
  rw [score]
  split_ifs
  · exact Or.inl rfl
  · exact Or.inr rfl

theorem evaluate_cases (b : TicTacToeBoard) :
    b.evaluate = 10 ∨ b.evaluate = -10 ∨ b.evaluate = 0 := by
  rw [evaluate]
  split
  · next won hLine =>
      obtain ⟨i, -, hWon⟩ := List.exists_of_findSome?_eq_some hLine
      split_ifs at hWon
      · obtain rfl := Option.some.inj hWon
        exact (score_eq _).imp_right Or.inl
      · obtain rfl := Option.some.inj hWon
        exact (score_eq _).imp_right Or.inl
  · split_ifs
    · exact (score_eq _).imp_right Or.inl
    · exact Or.inr (Or.inr rfl)

theorem set_move_blank {r c : Fin 3} (hBlank : b.is_blank r c = true) (piece : Char) :
    (b.set_move piece r c).set_move ' ' r c = b := by
  rw [is_blank, decide_eq_true_eq] at hBlank
  rw [set_move, set_move, Function.update_idem, ← hBlank, Function.update_eq_self]

/-- The number of free cells. -/
def blanks (b : TicTacToeBoard) : Nat := (Finset.univ.filter fun i => b.board i = ' ').card

theorem blanks_le (b : TicTacToeBoard) : b.blanks ≤ 9 := Finset.card_le_univ _

theorem mover_ne_blank (isMax : Bool) : mover isMax ≠ ' ' := by cases isMax <;> decide

theorem blanks_set_move {r c : Fin 3} (hBlank : b.is_blank r c = true) (isMax : Bool) :
    (b.set_move (mover isMax) r c).blanks < b.blanks := by
  rw [is_blank, decide_eq_true_eq] at hBlank
  have hNew : (b.set_move (mover isMax) r c).board (cell r c) = mover isMax :=
    Function.update_self _ _ _
  refine Finset.card_lt_card ((Finset.ssubset_iff_of_subset ?_).mpr
    ⟨cell r c, by simpa using hBlank, by simpa [hNew] using mover_ne_blank isMax⟩)
  intro i hi
  rw [Finset.mem_filter] at hi ⊢
  refine ⟨hi.1, ?_⟩
  by_cases hCell : i = cell r c
  · rw [hCell, hNew] at hi
    exact absurd hi.2 (mover_ne_blank isMax)
  · exact (Function.update_of_ne hCell _ _).symm.trans hi.2

/-- The score of a game that is won is higher when it is won earlier. -/
theorem Value.bounds (h : Value b depth isMax v) (hLow : 0 ≤ depth)
    (hHigh : depth + b.blanks ≤ 9) : -10 ≤ v ∧ v ≤ 10 := by
  induction h with
  | won => omega
  | lost => omega
  | draw => omega
  | max f _ _ _ hBest ih =>
      obtain ⟨⟨r, c, hBlank, rfl⟩, -⟩ := hBest
      have hFewer := blanks_set_move hBlank true
      exact ih r c hBlank (by omega) (by rw [mover, if_pos rfl] at hFewer; omega)
  | min f _ _ _ hBest ih =>
      obtain ⟨⟨r, c, hBlank, rfl⟩, -⟩ := hBest
      have hFewer := blanks_set_move hBlank false
      exact ih r c hBlank (by omega) (by
        rw [mover, if_neg Bool.false_ne_true] at hFewer
        omega)

theorem outcomes_congr {f g : Fin 3 → Fin 3 → Int}
    (h : ∀ r c, b.is_blank r c = true → f r c = g r c) : b.outcomes f = b.outcomes g := by
  ext v
  refine exists_congr fun r => exists_congr fun c => and_congr_right fun hBlank => ?_
  rw [h r c hBlank]

/-- A position has one value. -/
theorem Value.unique (h : Value b depth isMax v) (h' : Value b depth isMax w) : v = w := by
  induction h generalizing w with
  | won hScore =>
      cases h' with
      | won => rfl
      | lost hOther => omega
      | draw hOther => omega
      | max _ hOther => omega
      | min _ hOther => omega
  | lost hScore =>
      cases h' with
      | won hOther => omega
      | lost => rfl
      | draw hOther => omega
      | max _ hOther => omega
      | min _ hOther => omega
  | draw hScore hOver =>
      cases h' with
      | won hOther => omega
      | lost hOther => omega
      | draw => rfl
      | max _ _ hOpen => exact absurd (hOpen.symm.trans hOver) Bool.false_ne_true
      | min _ _ hOpen => exact absurd (hOpen.symm.trans hOver) Bool.false_ne_true
  | max f hScore hOpen _ hBest ih =>
      cases h' with
      | won hOther => omega
      | lost hOther => omega
      | draw _ hOver => exact absurd (hOpen.symm.trans hOver) Bool.false_ne_true
      | max g _ _ hNext hBest' =>
          rw [outcomes_congr fun r c hBlank => ih r c hBlank (hNext r c hBlank)] at hBest
          exact hBest.unique hBest'
  | min f hScore hOpen _ hBest ih =>
      cases h' with
      | won hOther => omega
      | lost hOther => omega
      | draw _ hOver => exact absurd (hOpen.symm.trans hOver) Bool.false_ne_true
      | min g _ _ hNext hBest' =>
          rw [outcomes_congr fun r c hBlank => ih r c hBlank (hNext r c hBlank)] at hBest
          exact hBest.unique hBest'

end Values

section Window

variable {b : TicTacToeBoard} {s : Search} {alpha beta r v : Int} {values : Set Int}
  {isMax : Bool}

/-- What is known when the moves with these values were tried. -/
def Standing (isMax : Bool) (alpha beta : Int) (b : TicTacToeBoard) (values : Set Int)
    (s : Search) : Prop :=
  s.board = b ∧ (alpha < beta →
    if isMax then
      s.beta = beta ∧ ∃ best, Raised alpha beta s.alpha s.score best ∧ IsGreatest values best
    else s.alpha = alpha ∧ ∃ best, Lowered alpha beta s.beta s.score best ∧ IsLeast values best)

theorem Standing.start (isMax : Bool) (alpha beta : Int) (b : TicTacToeBoard) (score : Int) :
    Standing isMax alpha beta b {score} ⟨score, alpha, beta, b⟩ := by
  refine ⟨rfl, fun _ => ?_⟩
  split_ifs
  · exact ⟨rfl, score, .start _ _ _, isGreatest_singleton⟩
  · exact ⟨rfl, score, .start _ _ _, isLeast_singleton⟩

theorem Standing.next (h : Standing isMax alpha beta b values s)
    (hr : s.alpha < s.beta → Agree s.alpha s.beta r v) :
    Standing isMax alpha beta b (insert v values) (s.update isMax r) := by
  obtain ⟨hBoard, hStanding⟩ := h
  refine ⟨hBoard, fun hWindow => ?_⟩
  cases isMax with
  | true =>
      obtain ⟨hBeta, best, hRaised, hBest⟩ := hStanding hWindow
      rw [hBeta] at hr
      refine ⟨hBeta, _, hRaised.next hWindow hr, ?_⟩
      rw [max_comm]
      exact hBest.insert v
  | false =>
      obtain ⟨hAlpha, best, hLowered, hBest⟩ := hStanding hWindow
      rw [hAlpha] at hr
      refine ⟨hAlpha, min best v, ?_, ?_⟩
      · have hNext := hLowered.next hWindow hr
        rwa [min_comm s.beta] at hNext
      · rw [min_comm]
        exact hBest.insert v

theorem Standing.cut (h : Standing isMax alpha beta b values s) (hCut : s.beta ≤ s.alpha)
    (v : Int) : Standing isMax alpha beta b (insert v values) s := by
  obtain ⟨hBoard, hStanding⟩ := h
  refine ⟨hBoard, fun hWindow => ?_⟩
  cases isMax with
  | true =>
      obtain ⟨hBeta, best, hRaised, hBest⟩ := hStanding hWindow
      refine ⟨hBeta, _, hRaised.cut hWindow (hBeta ▸ hCut) v, ?_⟩
      rw [max_comm]
      exact hBest.insert v
  | false =>
      obtain ⟨hAlpha, best, hLowered, hBest⟩ := hStanding hWindow
      refine ⟨hAlpha, _, hLowered.cut hWindow (hAlpha ▸ hCut) v, ?_⟩
      rw [min_comm]
      exact hBest.insert v

variable {minimax : TicTacToeBoard → Int → Int → Option (Int × TicTacToeBoard)}
  {f : Fin 3 → Fin 3 → Int}

/-- The first score and the values of the moves in some cells. -/
def tried (b : TicTacToeBoard) (f : Fin 3 → Fin 3 → Int) (score : Int)
    (cells : List (Fin 3 × Fin 3)) : Set Int :=
  {v | v = score ∨ ∃ rc ∈ cells, b.is_blank rc.1 rc.2 = true ∧ v = f rc.1 rc.2}

theorem tried_nil (score : Int) : b.tried f score [] = {score} := by
  ext v
  simp [tried]

theorem tried_concat_of_blank {score : Int} {done : List (Fin 3 × Fin 3)} {r c : Fin 3}
    (hBlank : b.is_blank r c = true) :
    b.tried f score (done ++ [(r, c)]) = insert (f r c) (b.tried f score done) := by
  ext v
  simp only [tried, Set.mem_ofPred_eq, Set.mem_insert_iff, List.mem_append, List.mem_singleton]
  constructor
  · rintro (hStart | ⟨rc, hDone | rfl, hFree, hv⟩)
    · exact Or.inr (Or.inl hStart)
    · exact Or.inr (Or.inr ⟨rc, hDone, hFree, hv⟩)
    · exact Or.inl hv
  · rintro (hv | hStart | ⟨rc, hDone, hFree, hv⟩)
    · exact Or.inr ⟨(r, c), Or.inr rfl, hBlank, hv⟩
    · exact Or.inl hStart
    · exact Or.inr ⟨rc, Or.inl hDone, hFree, hv⟩

theorem tried_concat_of_not_blank {score : Int} {done : List (Fin 3 × Fin 3)} {r c : Fin 3}
    (hBlank : ¬b.is_blank r c = true) :
    b.tried f score (done ++ [(r, c)]) = b.tried f score done := by
  ext v
  simp only [tried, Set.mem_ofPred_eq, List.mem_append, List.mem_singleton]
  constructor
  · rintro (hStart | ⟨rc, hDone | rfl, hFree, hv⟩)
    · exact Or.inl hStart
    · exact Or.inr ⟨rc, hDone, hFree, hv⟩
    · exact absurd hFree hBlank
  · rintro (hStart | ⟨rc, hDone, hFree, hv⟩)
    · exact Or.inl hStart
    · exact Or.inr ⟨rc, Or.inl hDone, hFree, hv⟩

/-- The cells after a closed window. -/
theorem Standing.skip {start : Int} {done : List (Fin 3 × Fin 3)}
    (h : Standing isMax alpha beta b (b.tried f start done) s) (hCut : s.beta ≤ s.alpha)
    (rest : List (Fin 3 × Fin 3)) :
    Standing isMax alpha beta b (b.tried f start (done ++ rest)) s := by
  induction rest generalizing done with
  | nil => rwa [List.append_nil]
  | cons rc rest ih =>
      rw [List.append_cons]
      refine ih ?_
      by_cases hBlank : b.is_blank rc.1 rc.2 = true
      · rw [tried_concat_of_blank hBlank]
        exact h.cut hCut _
      · rwa [tried_concat_of_not_blank hBlank]

/-- What is known of the search of the positions after a move. -/
def Answers (minimax : TicTacToeBoard → Int → Int → Option (Int × TicTacToeBoard))
    (b : TicTacToeBoard) (isMax : Bool) (f : Fin 3 → Fin 3 → Int) : Prop :=
  ∀ r c, b.is_blank r c = true → ∀ alpha beta, ∃ x,
    minimax (b.set_move (mover isMax) r c) alpha beta =
      some (x, b.set_move (mover isMax) r c) ∧ (alpha < beta → Agree alpha beta x (f r c))

/-- A move is taken back before the next one. -/
theorem try_row_cons_of_blank {r c : Fin 3} {cols : List (Fin 3)} {x : Int} (hBoard : s.board = b)
    (hBlank : b.is_blank r c = true)
    (hSearch : minimax (b.set_move (mover isMax) r c) s.alpha s.beta =
      some (x, b.set_move (mover isMax) r c)) :
    try_row minimax isMax r (c :: cols) s =
      if (s.update isMax x).beta ≤ (s.update isMax x).alpha then some (s.update isMax x)
      else try_row minimax isMax r cols (s.update isMax x) := by
  have hBack : { s.update isMax x with
      board := (b.set_move (mover isMax) r c).set_move ' ' r c } = s.update isMax x := by
    rw [set_move_blank hBlank, ← hBoard]
    rfl
  rw [try_row, hBoard, if_pos hBlank, hSearch, ← hBack]
  rfl

theorem try_row_standing (hChild : Answers minimax b isMax f) {start : Int} (r : Fin 3)
    (cols : List (Fin 3)) {done : List (Fin 3 × Fin 3)}
    (h : Standing isMax alpha beta b (b.tried f start done) s) :
    ∃ s', try_row minimax isMax r cols s = some s' ∧
      Standing isMax alpha beta b (b.tried f start (done ++ cols.map (r, ·))) s' := by
  induction cols generalizing done s with
  | nil => exact ⟨s, rfl, by rwa [List.map_nil, List.append_nil]⟩
  | cons c cols ih =>
      have hBoard := h.1
      rw [List.map_cons, List.append_cons]
      by_cases hBlank : b.is_blank r c = true
      · obtain ⟨x, hSearch, hAgree⟩ := hChild r c hBlank s.alpha s.beta
        have hNext := h.next (v := f r c) hAgree
        rw [← tried_concat_of_blank hBlank] at hNext
        rw [try_row_cons_of_blank hBoard hBlank hSearch]
        by_cases hCut : (s.update isMax x).beta ≤ (s.update isMax x).alpha
        · exact ⟨_, if_pos hCut, hNext.skip hCut _⟩
        · obtain ⟨s', hRow, hStanding⟩ := ih hNext
          exact ⟨s', (if_neg hCut).trans hRow, hStanding⟩
      · rw [try_row, hBoard, if_neg hBlank]
        rw [← tried_concat_of_not_blank hBlank] at h
        exact ih h

theorem rows_standing (hChild : Answers minimax b isMax f) {start : Int}
    (rows : List (Fin 3)) {done : List (Fin 3 × Fin 3)}
    (h : Standing isMax alpha beta b (b.tried f start done) s) :
    ∃ s', rows.foldlM (fun s r => try_row minimax isMax r (List.finRange 3) s) s = some s' ∧
      Standing isMax alpha beta b
        (b.tried f start (done ++ rows.flatMap fun r => (List.finRange 3).map (r, ·))) s' := by
  induction rows generalizing done s with
  | nil => exact ⟨s, rfl, by rwa [List.flatMap_nil, List.append_nil]⟩
  | cons r rows ih =>
      obtain ⟨s₁, hRow, h₁⟩ := try_row_standing hChild r (List.finRange 3) h
      obtain ⟨s', hRows, hStanding⟩ := ih h₁
      rw [List.flatMap_cons, ← List.append_assoc]
      exact ⟨s', by rw [List.foldlM_cons, hRow]; exact hRows, hStanding⟩

theorem mem_cells (r c : Fin 3) :
    (r, c) ∈ (List.finRange 3).flatMap fun r => (List.finRange 3).map (r, ·) :=
  List.mem_flatMap.mpr
    ⟨r, List.mem_finRange r, List.mem_map.mpr ⟨c, List.mem_finRange c, rfl⟩⟩

theorem tried_cells (score : Int) :
    b.tried f score ((List.finRange 3).flatMap fun r => (List.finRange 3).map (r, ·)) =
      insert score (b.outcomes f) := by
  ext v
  refine or_congr_right ⟨?_, ?_⟩
  · rintro ⟨rc, -, hBlank, hv⟩
    exact ⟨rc.1, rc.2, hBlank, hv⟩
  · rintro ⟨r, c, hBlank, hv⟩
    exact ⟨(r, c), mem_cells r c, hBlank, hv⟩

theorem Standing.agree (h : Standing isMax alpha beta b values s)
    (hWindow : alpha < beta) (hv : if isMax then IsGreatest values v else IsLeast values v) :
    Agree alpha beta s.score v := by
  cases isMax with
  | true =>
      obtain ⟨-, best, hRaised, hBest⟩ := h.2 hWindow
      rw [← hBest.unique hv]
      exact hRaised.agree
  | false =>
      obtain ⟨-, best, hLowered, hBest⟩ := h.2 hWindow
      rw [← hBest.unique hv]
      exact hLowered.agree

end Window

section Minimax

variable {b : TicTacToeBoard} {f : Fin 3 → Fin 3 → Int} {depth start v : Int} {isMax : Bool}

theorem outcomes_finite (b : TicTacToeBoard) (f : Fin 3 → Fin 3 → Int) : (b.outcomes f).Finite := by
  refine (Set.finite_range fun rc : Fin 3 × Fin 3 => f rc.1 rc.2).subset ?_
  rintro v ⟨r, c, -, rfl⟩
  exact ⟨(r, c), rfl⟩

theorem outcomes_nonempty (f : Fin 3 → Fin 3 → Int) (hOpen : b.game_over = false) :
    (b.outcomes f).Nonempty := by
  obtain ⟨r, c, hBlank⟩ := game_over_eq_false_iff.mp hOpen
  exact ⟨_, r, c, hBlank, rfl⟩

/-- The best of some values, for the player who is to move. -/
def Best (isMax : Bool) (values : Set Int) (v : Int) : Prop :=
  if isMax then IsGreatest values v else IsLeast values v

theorem exists_best (isMax : Bool) (f : Fin 3 → Fin 3 → Int) (hOpen : b.game_over = false) :
    ∃ v, Best isMax (b.outcomes f) v := by
  cases isMax with
  | true =>
      obtain ⟨v, hv, hMax⟩ := Set.exists_max_image _ id (outcomes_finite b f)
        (outcomes_nonempty f hOpen)
      exact ⟨v, hv, hMax⟩
  | false =>
      obtain ⟨v, hv, hMin⟩ := Set.exists_min_image _ id (outcomes_finite b f)
        (outcomes_nonempty f hOpen)
      exact ⟨v, hv, hMin⟩

/-- The first score is worse than that of every move. -/
def Worst (isMax : Bool) (start : Int) (values : Set Int) : Prop :=
  ∀ v ∈ values, if isMax then start < v else v < start

theorem Best.insert {values : Set Int} (h : Best isMax values v)
    (hStart : Worst isMax start values) : Best isMax (insert start values) v := by
  cases isMax with
  | true =>
      have hv : start < v := hStart v h.1
      have hBest := h.insert start
      rwa [max_eq_right hv.le] at hBest
  | false =>
      have hv : v < start := hStart v h.1
      have hBest := h.insert start
      rwa [min_eq_right hv.le] at hBest

theorem Value.move (hScore : b.evaluate = 0) (hOpen : b.game_over = false)
    (hNext : ∀ r c, b.is_blank r c = true →
      Value (b.set_move (mover isMax) r c) (depth + 1) (!isMax) (f r c))
    (hBest : Best isMax (b.outcomes f) v) : Value b depth isMax v := by
  cases isMax with
  | true => exact .max f hScore hOpen hNext hBest
  | false => exact .min f hScore hOpen hNext hBest

/-- The search from a position, when the searches after each move are right. -/
theorem rows_agree {minimax : TicTacToeBoard → Int → Int → Option (Int × TicTacToeBoard)}
    (hChild : Answers minimax b isMax f) (hBest : Best isMax (b.outcomes f) v)
    (hStart : Worst isMax start (b.outcomes f)) (alpha beta : Int) :
    ∃ s, (List.finRange 3).foldlM
        (fun s r => try_row minimax isMax r (List.finRange 3) s) ⟨start, alpha, beta, b⟩ = some s ∧
      s.board = b ∧ (alpha < beta → Agree alpha beta s.score v) := by
  have hFirst : Standing isMax alpha beta b (b.tried f start []) ⟨start, alpha, beta, b⟩ := by
    rw [tried_nil]
    exact .start isMax alpha beta b start
  obtain ⟨s, hRows, hStanding⟩ := rows_standing hChild (List.finRange 3) hFirst
  rw [List.nil_append, tried_cells] at hStanding
  exact ⟨s, hRows, hStanding.1, fun hWindow => hStanding.agree hWindow (hBest.insert hStart)⟩

theorem minimax_of_open (fuel : Nat) (hScore : b.evaluate = 0) (hOpen : b.game_over = false)
    (alpha beta : Int) : minimax (fuel + 1) b depth isMax alpha beta = do
      let s ← (List.finRange 3).foldlM
        (fun s r => try_row (fun b => minimax fuel b (depth + 1) !isMax) isMax r
          (List.finRange 3) s)
        ⟨if isMax then -1000 else 1000, alpha, beta, b⟩
      return (s.score, s.board) := by
  rw [minimax, hScore, if_neg (by decide), if_neg (by decide), hOpen, if_neg Bool.false_ne_true]

theorem minimax_agree (depth : Int) (isMax : Bool) (fuel : Nat) (hFuel : b.blanks < fuel)
    (hLow : 0 ≤ depth) (hHigh : depth + b.blanks ≤ 9) :
    ∃ v, Value b depth isMax v ∧ ∀ alpha beta, ∃ x, minimax fuel b depth isMax alpha beta =
      some (x, b) ∧ (alpha < beta → Agree alpha beta x v) := by
  induction fuel generalizing b depth isMax with
  | zero => omega
  | succ fuel ih =>
      rcases evaluate_cases b with hScore | hScore | hScore
      · refine ⟨_, .won hScore, fun alpha beta => ⟨10 - depth, ?_, fun _ => Or.inl rfl⟩⟩
        rw [minimax, if_pos hScore, hScore]
      · refine ⟨_, .lost hScore, fun alpha beta => ⟨-10 + depth, ?_, fun _ => Or.inl rfl⟩⟩
        rw [minimax, hScore, if_neg (by decide), if_pos rfl]
      cases hOver : b.game_over with
      | true =>
          refine ⟨_, .draw hScore hOver, fun alpha beta => ⟨0, ?_, fun _ => Or.inl rfl⟩⟩
          rw [minimax, hScore, if_neg (by decide), if_neg (by decide), if_pos hOver]
      | false =>
          have hNext : ∀ r c, b.is_blank r c = true → ∃ v,
              Value (b.set_move (mover isMax) r c) (depth + 1) (!isMax) v ∧ ∀ alpha beta, ∃ x,
                minimax fuel (b.set_move (mover isMax) r c) (depth + 1) (!isMax) alpha beta =
                  some (x, b.set_move (mover isMax) r c) ∧
                (alpha < beta → Agree alpha beta x v) := by
            intro r c hBlank
            have hFewer := blanks_set_move hBlank isMax
            exact ih (depth + 1) (!isMax) (by omega) (by omega) (by omega)
          choose! f hValue hChild using hNext
          obtain ⟨v, hBest⟩ := exists_best isMax f hOver
          refine ⟨v, .move hScore hOver hValue hBest, fun alpha beta => ?_⟩
          have hStart : Worst isMax (if isMax then -1000 else 1000) (b.outcomes f) := by
            rintro w ⟨r, c, hBlank, rfl⟩
            have hFewer := blanks_set_move hBlank isMax
            have hBounds := (hValue r c hBlank).bounds (by omega) (by omega)
            split_ifs <;> omega
          have hAnswers : Answers (fun b => minimax fuel b (depth + 1) !isMax) b isMax f := hChild
          obtain ⟨s, hRows, hBoard, hAgree⟩ := rows_agree hAnswers hBest hStart alpha beta
          refine ⟨s.score, ?_, hAgree⟩
          rw [minimax_of_open fuel hScore hOver, hRows, ← hBoard]
          rfl

end Minimax

/-- `minimax` puts the board back and finds the value of the position, as far as it is in the
window. -/
theorem minimax_value (b : TicTacToeBoard) (depth : Int) (isMax : Bool) (hLow : 0 ≤ depth)
    (hHigh : depth + b.blanks ≤ 9) :
    ∃ v, Value b depth isMax v ∧ ∀ alpha beta, alpha < beta → ∃ x,
      minimax 10 b depth isMax alpha beta = some (x, b) ∧
      (alpha < v ∧ v < beta → x = v) ∧ (v ≤ alpha → x ≤ alpha) ∧ (beta ≤ v → beta ≤ x) := by
  obtain ⟨v, hValue, hSearch⟩ :=
    minimax_agree depth isMax 10 (Nat.lt_succ_of_le b.blanks_le) hLow hHigh
  refine ⟨v, hValue, fun alpha beta hWindow => ?_⟩
  obtain ⟨x, hx, hAgree⟩ := hSearch alpha beta
  refine ⟨x, hx, fun hv => (hAgree hWindow).eq_of_mem hv.1 hv.2, ?_, ?_⟩
  · intro hv
    rcases hAgree hWindow with rfl | ⟨hBelow, -⟩ | ⟨-, hAbove⟩
    · exact hv
    · exact hBelow
    · omega
  · intro hv
    rcases hAgree hWindow with rfl | ⟨-, hBelow⟩ | ⟨hAbove, -⟩
    · exact hv
    · omega
    · exact hAbove

theorem minimax_value_start : ∃ v, Value construct 0 true v ∧ ∀ alpha beta, alpha < beta → ∃ x,
    minimax 10 construct 0 true alpha beta = some (x, construct) ∧
    (alpha < v ∧ v < beta → x = v) ∧ (v ≤ alpha → x ≤ alpha) ∧ (beta ≤ v → beta ≤ x) :=
  minimax_value construct 0 true le_rfl (by decide)

section BestMove

variable {b : TicTacToeBoard} {f : Fin 3 → Fin 3 → Int} {isMax : Bool} {s : Choice}
  {done : List (Fin 3 × Fin 3)}

/-- The values of the positions after a move, as `find_best_move` looks at them. -/
def MoveValues (b : TicTacToeBoard) (isMax : Bool) (f : Fin 3 → Fin 3 → Int) : Prop :=
  ∀ r c, b.is_blank r c = true → Value (b.set_move (mover isMax) r c) 0 (!isMax) (f r c)

theorem moveValues_bounds (hf : MoveValues b isMax f) {r c : Fin 3}
    (hBlank : b.is_blank r c = true) : -10 ≤ f r c ∧ f r c ≤ 10 :=
  (hf r c hBlank).bounds le_rfl (by
    have hNine := (b.set_move (mover isMax) r c).blanks_le
    omega)

theorem exists_moveValues (b : TicTacToeBoard) (isMax : Bool) : ∃ f, MoveValues b isMax f := by
  have hNext : ∀ r c, ∃ v, b.is_blank r c = true →
      Value (b.set_move (mover isMax) r c) 0 (!isMax) v := by
    intro r c
    have hNine := (b.set_move (mover isMax) r c).blanks_le
    obtain ⟨v, hv, -⟩ := minimax_value (b.set_move (mover isMax) r c) 0 (!isMax) le_rfl (by omega)
    exact ⟨v, fun _ => hv⟩
  choose f hf using hNext
  exact ⟨f, hf⟩

/-- The search after a move, with the window of `find_best_move`. -/
theorem minimax_move (hf : MoveValues b isMax f) {r c : Fin 3} (hBlank : b.is_blank r c = true) :
    minimax 10 (b.set_move (mover isMax) r c) 0 (!isMax) (-10000) 10000 =
      some (f r c, b.set_move (mover isMax) r c) := by
  have hNine := (b.set_move (mover isMax) r c).blanks_le
  obtain ⟨v, hValue, hSearch⟩ :=
    minimax_value (b.set_move (mover isMax) r c) 0 (!isMax) le_rfl (by omega)
  obtain rfl := hValue.unique (hf r c hBlank)
  have hBounds := moveValues_bounds hf hBlank
  obtain ⟨x, hx, hExact, -⟩ := hSearch (-10000) 10000 (by decide)
  rw [hx, hExact (by omega)]

/-- A better score for the player who is to move. -/
def Better (isMax : Bool) (x y : Int) : Prop := if isMax then y < x else x < y

theorem better_iff {x y : Int} : Better isMax x y ↔ isMax ∧ x > y ∨ ¬isMax ∧ x < y := by
  cases isMax <;> simp [Better]

theorem choose_of_blank (hf : MoveValues b isMax f) (hBoard : s.board = b) {r c : Fin 3}
    (hBlank : b.is_blank r c = true) :
    (Better isMax (f r c) s.score ∧ choose isMax s r c = some ⟨f r c, (r, c), b⟩) ∨
      (¬Better isMax (f r c) s.score ∧ choose isMax s r c = some s) := by
  have hChoose : choose isMax s r c = if isMax ∧ f r c > s.score ∨ ¬isMax ∧ f r c < s.score then
      some ⟨f r c, (r, c), b⟩ else some s := by
    have hSame : { s with board := b } = s := by rw [← hBoard]
    rw [choose, hBoard, if_pos hBlank, minimax_move hf hBlank, Option.bind_eq_bind,
      Option.bind_some]
    dsimp only
    rw [set_move_blank hBlank, hSame]
    rfl
  rw [hChoose, better_iff]
  exact (em _).imp (fun h => ⟨h, if_pos h⟩) fun h => ⟨h, if_neg h⟩

/-- What the best move so far is. -/
def Picked (b : TicTacToeBoard) (isMax : Bool) (f : Fin 3 → Fin 3 → Int)
    (done : List (Fin 3 × Fin 3)) (s : Choice) : Prop :=
  s.board = b ∧ (((∀ rc ∈ done, ¬b.is_blank rc.1 rc.2 = true) ∧
      s.score = if isMax then -10000 else 10000) ∨
    ∃ before after, done = before ++ s.best :: after ∧
      b.is_blank s.best.1 s.best.2 = true ∧ s.score = f s.best.1 s.best.2 ∧
      (∀ rc ∈ before, b.is_blank rc.1 rc.2 = true → Better isMax s.score (f rc.1 rc.2)) ∧
      ∀ rc ∈ after, b.is_blank rc.1 rc.2 = true → ¬Better isMax (f rc.1 rc.2) s.score)

theorem Better.trans_not {x y z : Int} (h : Better isMax x y) (hz : ¬Better isMax z y) :
    Better isMax x z := by
  cases isMax with
  | true => exact lt_of_le_of_lt (not_lt.mp hz) h
  | false => exact lt_of_lt_of_le h (not_lt.mp hz)

theorem Better.trans {x y z : Int} (h : Better isMax x y) (hz : Better isMax y z) :
    Better isMax x z := by
  cases isMax with
  | true => exact lt_trans hz h
  | false => exact lt_trans h hz

theorem Picked.next (h : Picked b isMax f done s) (hf : MoveValues b isMax f) (r c : Fin 3) :
    ∃ s', choose isMax s r c = some s' ∧ Picked b isMax f (done ++ [(r, c)]) s' := by
  obtain ⟨hBoard, hPicked⟩ := h
  by_cases hBlank : b.is_blank r c = true
  · rcases choose_of_blank hf hBoard hBlank with ⟨hBetter, hChoose⟩ | ⟨hKeep, hChoose⟩
    · refine ⟨_, hChoose, rfl, Or.inr ⟨done, [], rfl, hBlank, rfl, ?_, by simp⟩⟩
      intro rc hDone hFree
      rcases hPicked with ⟨hNone, -⟩ | ⟨before, after, rfl, -, hScore, hBefore, hAfter⟩
      · exact absurd hFree (hNone rc hDone)
      · rcases List.mem_append.mp hDone with hEarly | hLate
        · exact hBetter.trans (hBefore rc hEarly hFree)
        · rcases List.mem_cons.mp hLate with rfl | hLate
          · rw [← hScore]
            exact hBetter
          · exact hBetter.trans_not (hAfter rc hLate hFree)
    · refine ⟨s, hChoose, hBoard, ?_⟩
      rcases hPicked with ⟨-, hScore⟩ | ⟨before, after, rfl, hFree, hScore, hBefore, hAfter⟩
      · -- The first free cell is always taken.
        have hBounds := moveValues_bounds hf hBlank
        exfalso
        refine hKeep (better_iff.mpr ?_)
        cases isMax with
        | true => exact Or.inl ⟨rfl, by rw [hScore, if_pos rfl]; omega⟩
        | false => exact Or.inr ⟨Bool.false_ne_true, by
            rw [hScore, if_neg Bool.false_ne_true]
            omega⟩
      · refine Or.inr ⟨before, after ++ [(r, c)], by simp, hFree, hScore, hBefore, ?_⟩
        intro rc hLate hFree
        rcases List.mem_append.mp hLate with hLate | hLast
        · exact hAfter rc hLate hFree
        · obtain rfl := List.mem_singleton.mp hLast
          exact hKeep
  · refine ⟨s, by rw [choose, hBoard, if_neg hBlank], hBoard, ?_⟩
    rcases hPicked with ⟨hNone, hScore⟩ | ⟨before, after, rfl, hFree, hScore, hBefore, hAfter⟩
    · refine Or.inl ⟨fun rc hDone => ?_, hScore⟩
      rcases List.mem_append.mp hDone with hDone | hLast
      · exact hNone rc hDone
      · rwa [List.mem_singleton.mp hLast]
    · refine Or.inr ⟨before, after ++ [(r, c)], by simp, hFree, hScore, hBefore, ?_⟩
      intro rc hLate hFree
      rcases List.mem_append.mp hLate with hLate | hLast
      · exact hAfter rc hLate hFree
      · rw [List.mem_singleton.mp hLast] at hFree
        exact absurd hFree hBlank

theorem row_picked (h : Picked b isMax f done s) (hf : MoveValues b isMax f) (r : Fin 3)
    (cols : List (Fin 3)) :
    ∃ s', cols.foldlM (fun s c => choose isMax s r c) s = some s' ∧
      Picked b isMax f (done ++ cols.map (r, ·)) s' := by
  induction cols generalizing done s with
  | nil => exact ⟨s, rfl, by rwa [List.map_nil, List.append_nil]⟩
  | cons c cols ih =>
      obtain ⟨s₁, hChoose, h₁⟩ := h.next hf r c
      obtain ⟨s', hCols, hPicked⟩ := ih h₁
      rw [List.map_cons, List.append_cons]
      exact ⟨s', by rw [List.foldlM_cons, hChoose]; exact hCols, hPicked⟩

theorem rows_picked (h : Picked b isMax f done s) (hf : MoveValues b isMax f)
    (rows : List (Fin 3)) :
    ∃ s', rows.foldlM (fun s r => (List.finRange 3).foldlM (fun s c => choose isMax s r c) s) s =
        some s' ∧
      Picked b isMax f (done ++ rows.flatMap fun r => (List.finRange 3).map (r, ·)) s' := by
  induction rows generalizing done s with
  | nil => exact ⟨s, rfl, by rwa [List.flatMap_nil, List.append_nil]⟩
  | cons r rows ih =>
      obtain ⟨s₁, hRow, h₁⟩ := row_picked h hf r (List.finRange 3)
      obtain ⟨s', hRows, hPicked⟩ := ih h₁
      rw [List.flatMap_cons, ← List.append_assoc]
      exact ⟨s', by rw [List.foldlM_cons, hRow]; exact hRows, hPicked⟩

theorem cells_sorted : ((List.finRange 3).flatMap fun r => (List.finRange 3).map (r, ·)).Pairwise
    fun x y : Fin 3 × Fin 3 => cell x.1 x.2 < cell y.1 y.2 := by
  decide

theorem picked_of_open (hf : MoveValues b isMax f) (hOpen : b.game_over = false) :
    ∃ s, find_best_move isMax b = some s ∧ s.board = b ∧
      b.is_blank s.best.1 s.best.2 = true ∧ s.score = f s.best.1 s.best.2 ∧
      ∀ r c, b.is_blank r c = true → ¬Better isMax (f r c) s.score ∧
        (cell r c < cell s.best.1 s.best.2 → Better isMax s.score (f r c)) := by
  have hFirst : Picked b isMax f [] ⟨if isMax then -10000 else 10000, (0, 0), b⟩ :=
    ⟨rfl, Or.inl ⟨by simp, rfl⟩⟩
  obtain ⟨s, hRows, hBoard, hPicked⟩ := rows_picked hFirst hf (List.finRange 3)
  rw [List.nil_append] at hPicked
  refine ⟨s, hRows, hBoard, ?_⟩
  rcases hPicked with ⟨hNone, -⟩ | ⟨before, after, hCells, hFree, hScore, hBefore, hAfter⟩
  · obtain ⟨r, c, hBlank⟩ := game_over_eq_false_iff.mp hOpen
    exact absurd hBlank (hNone (r, c) (mem_cells r c))
  · refine ⟨hFree, hScore, fun r c hBlank => ?_⟩
    have hSorted := cells_sorted
    have hMem := mem_cells r c
    rw [hCells] at hSorted hMem
    have hNever : ∀ {x : Int}, Better isMax s.score x → ¬Better isMax x s.score := by
      intro x hx hBack
      have hLoop := hx.trans hBack
      rw [better_iff] at hLoop
      omega
    rcases List.mem_append.mp hMem with hEarly | hLate
    · have hBetter := hBefore (r, c) hEarly hBlank
      exact ⟨hNever hBetter, fun _ => hBetter⟩
    · have hOrder := (List.pairwise_append.mp hSorted).2.1
      rcases List.mem_cons.mp hLate with hSame | hLate
      · rw [← hSame] at hScore ⊢
        refine ⟨fun hBetter => ?_, fun hLt => absurd hLt (lt_irrefl _)⟩
        rw [show s.score = f r c from hScore, better_iff] at hBetter
        omega
      · exact ⟨hAfter (r, c) hLate hBlank, fun hLt =>
          absurd hLt (lt_asymm ((List.pairwise_cons.mp hOrder).1 (r, c) hLate))⟩

/-- The move that is found: the first free cell with the best value, on the board as it was. -/
theorem find_best_move_first (b : TicTacToeBoard) (isMax : Bool) (hOpen : b.game_over = false) :
    ∃ f, MoveValues b isMax f ∧ ∃ s, find_best_move isMax b = some s ∧ s.board = b ∧
      b.is_blank s.best.1 s.best.2 = true ∧ s.score = f s.best.1 s.best.2 ∧
      ∀ r c, b.is_blank r c = true → ¬Better isMax (f r c) s.score ∧
        (cell r c < cell s.best.1 s.best.2 → Better isMax s.score (f r c)) := by
  obtain ⟨f, hf⟩ := exists_moveValues b isMax
  exact ⟨f, hf, picked_of_open hf hOpen⟩

theorem find_best_move_first_start : ∃ f, MoveValues construct true f ∧
    ∃ s, find_best_move true construct = some s ∧ s.board = construct ∧
      construct.is_blank s.best.1 s.best.2 = true ∧ s.score = f s.best.1 s.best.2 ∧
      ∀ r c, construct.is_blank r c = true → ¬Better true (f r c) s.score ∧
        (cell r c < cell s.best.1 s.best.2 → Better true s.score (f r c)) :=
  find_best_move_first construct true (by decide)

end BestMove

section Strategy

variable {b : TicTacToeBoard} {f : Fin 3 → Fin 3 → Int} {isMax side : Bool} {depth v : Int}

/-- A position: the board, and whether the player is to move. -/
abbrev Position := TicTacToeBoard × Bool

/-- The side has three in a line. -/
def Wins (side : Bool) (p : Position) : Prop := p.1.evaluate = if side then 10 else -10

def Move (p q : Position) : Prop :=
  p.1.evaluate = 0 ∧ ∃ r c, p.1.is_blank r c = true ∧ q = (p.1.set_move (mover p.2) r c, !p.2)

def Turn (side : Bool) (p : Position) : Prop := p.2 = side

/-- The side can win, whatever the other one does. -/
def CanWin (side : Bool) (p : Position) : Prop := Forces (Wins side) (Turn side) Move p

/-- The value is good for the side. -/
def Ahead (side : Bool) (v : Int) : Prop := if side then 0 < v else v < 0

theorem ahead_iff_of_best {values : Set Int} (h : Best isMax values v) :
    Ahead isMax v ↔ ∃ w ∈ values, Ahead isMax w := by
  cases isMax with
  | true => exact ⟨fun hv => ⟨v, h.1, hv⟩, fun ⟨w, hw, hPos⟩ => lt_of_lt_of_le hPos (h.2 hw)⟩
  | false => exact ⟨fun hv => ⟨v, h.1, hv⟩, fun ⟨w, hw, hNeg⟩ => lt_of_le_of_lt (h.2 hw) hNeg⟩

theorem ahead_iff_of_best_other {values : Set Int} (h : Best isMax values v) :
    Ahead (!isMax) v ↔ ∀ w ∈ values, Ahead (!isMax) w := by
  cases isMax with
  | true => exact ⟨fun hv w hw => lt_of_le_of_lt (h.2 hw) hv, fun hAll => hAll v h.1⟩
  | false => exact ⟨fun hv w hw => lt_of_lt_of_le hv (h.2 hw), fun hAll => hAll v h.1⟩

theorem not_wins_of_evaluate (hScore : b.evaluate = 0) : ¬Wins side (b, isMax) := by
  rw [Wins, hScore]
  cases side <;> decide

/-- One move of the game. -/
theorem canWin_iff_of_open (hScore : b.evaluate = 0) (hOpen : b.game_over = false)
    (hNext : ∀ r c, b.is_blank r c = true →
      (Ahead side (f r c) ↔ CanWin side (b.set_move (mover isMax) r c, !isMax)))
    (hBest : Best isMax (b.outcomes f) v) : Ahead side v ↔ CanWin side (b, isMax) := by
  by_cases hMine : isMax = side
  · subst hMine
    have hTurn : Turn isMax (b, isMax) := rfl
    rw [CanWin, forces_iff_of_mine hTurn (not_wins_of_evaluate hScore), ahead_iff_of_best hBest]
    constructor
    · rintro ⟨_, ⟨r, c, hBlank, rfl⟩, hAhead⟩
      exact ⟨_, ⟨hScore, r, c, hBlank, rfl⟩, (hNext r c hBlank).mp hAhead⟩
    · rintro ⟨_, ⟨-, r, c, hBlank, rfl⟩, hForces⟩
      exact ⟨_, ⟨r, c, hBlank, rfl⟩, (hNext r c hBlank).mpr hForces⟩
  · obtain rfl : side = !isMax := by
      cases side <;> cases isMax <;> first | rfl | exact absurd rfl hMine
    have hTurn : ¬Turn (!isMax) (b, isMax) := hMine
    rw [CanWin, forces_iff_of_not_mine hTurn (not_wins_of_evaluate hScore),
      ahead_iff_of_best_other hBest]
    constructor
    · intro hAll
      obtain ⟨r, c, hBlank⟩ := game_over_eq_false_iff.mp hOpen
      refine ⟨⟨_, hScore, r, c, hBlank, rfl⟩, ?_⟩
      rintro _ ⟨-, r, c, hBlank, rfl⟩
      exact (hNext r c hBlank).mp (hAll _ ⟨r, c, hBlank, rfl⟩)
    · rintro ⟨-, hAll⟩ _ ⟨r, c, hBlank, rfl⟩
      exact (hNext r c hBlank).mpr (hAll _ ⟨hScore, r, c, hBlank, rfl⟩)

theorem canWin_iff_of_stuck (hStuck : ∀ q, ¬Move (b, isMax) q) :
    CanWin side (b, isMax) ↔ Wins side (b, isMax) :=
  forces_iff_of_stuck hStuck

theorem not_move_of_evaluate (hScore : b.evaluate ≠ 0) (q : Position) : ¬Move (b, isMax) q :=
  fun h => hScore h.1

theorem not_move_of_game_over (hOver : b.game_over = true) (q : Position) :
    ¬Move (b, isMax) q := by
  rintro ⟨-, r, c, hBlank, -⟩
  exact Bool.false_ne_true ((game_over_eq_false_iff.mpr ⟨r, c, hBlank⟩).symm.trans hOver)

/-- The value of a position tells who wins. -/
theorem Value.ahead_iff (h : Value b depth isMax v) (hLow : 0 ≤ depth)
    (hHigh : depth + b.blanks ≤ 9) : Ahead side v ↔ CanWin side (b, isMax) := by
  induction h with
  | won hScore =>
      rw [canWin_iff_of_stuck (not_move_of_evaluate (by omega)), Wins, hScore, Ahead]
      cases side <;> simp <;> omega
  | lost hScore =>
      rw [canWin_iff_of_stuck (not_move_of_evaluate (by omega)), Wins, hScore, Ahead]
      cases side <;> simp <;> omega
  | draw hScore hOver =>
      rw [canWin_iff_of_stuck (not_move_of_game_over hOver), Wins, hScore, Ahead]
      cases side <;> simp
  | @max b depth v f hScore hOpen _ hBest ih =>
      refine canWin_iff_of_open hScore hOpen (fun r c hBlank => ?_) hBest
      have hFewer : (b.set_move PLAYER r c).blanks < b.blanks := blanks_set_move hBlank true
      exact ih r c hBlank (by omega) (by omega)
  | @min b depth v f hScore hOpen _ hBest ih =>
      refine canWin_iff_of_open hScore hOpen (fun r c hBlank => ?_) hBest
      have hFewer : (b.set_move COMPUTER r c).blanks < b.blanks := blanks_set_move hBlank false
      exact ih r c hBlank (by omega) (by omega)

/-- The move that is found keeps the outcome of the game: a side can win after it exactly when it
could before. -/
theorem find_best_move_keeps (b : TicTacToeBoard) (isMax : Bool) (hScore : b.evaluate = 0)
    (hOpen : b.game_over = false) : ∃ s, find_best_move isMax b = some s ∧ ∀ side,
      CanWin side (b.set_move (mover isMax) s.best.1 s.best.2, !isMax) ↔
        CanWin side (b, isMax) := by
  obtain ⟨f, hf⟩ := exists_moveValues b isMax
  obtain ⟨s, hMove, -, hBlank, hBestScore, hOthers⟩ := picked_of_open hf hOpen
  refine ⟨s, hMove, fun side => ?_⟩
  have hAhead : ∀ r c, b.is_blank r c = true →
      (Ahead side (f r c) ↔ CanWin side (b.set_move (mover isMax) r c, !isMax)) := by
    intro r c hFree
    have hNine := (b.set_move (mover isMax) r c).blanks_le
    exact (hf r c hFree).ahead_iff le_rfl (by omega)
  have hBest : Best isMax (b.outcomes f) s.score := by
    cases isMax with
    | true =>
        refine ⟨⟨_, _, hBlank, hBestScore⟩, ?_⟩
        rintro _ ⟨r, c, hFree, rfl⟩
        exact not_lt.mp (hOthers r c hFree).1
    | false =>
        refine ⟨⟨_, _, hBlank, hBestScore⟩, ?_⟩
        rintro _ ⟨r, c, hFree, rfl⟩
        exact not_lt.mp (hOthers r c hFree).1
  rw [← hAhead _ _ hBlank, ← hBestScore]
  exact canWin_iff_of_open hScore hOpen hAhead hBest

theorem find_best_move_keeps_start : ∃ s, find_best_move true construct = some s ∧ ∀ side,
    CanWin side (construct.set_move PLAYER s.best.1 s.best.2, false) ↔
      CanWin side (construct, true) :=
  find_best_move_keeps construct true (by decide) (by decide)

end Strategy

end TicTacToeBoard

end CppPerf.Games
