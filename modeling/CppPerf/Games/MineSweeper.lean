import CppPerf.Semantics.Run
import Mathlib.Data.Finset.Image
import Mathlib.Data.Finset.Prod
import Mathlib.Logic.Equiv.Basic

/-! The board of `MineSweeper.cpp`. A cell is read only where its row and column
are valid. The loop that opens the cells around blank ones is given `fuel` for
its rounds. -/
namespace CppPerf.Games

inductive Cell_State where
  | Opened
  | Unopened
  | Marked
deriving DecidableEq

/-- `mine` is negative for a mine, and else the number of mines around the cell. -/
structure Cell where
  mine : Int := 0
  state : Cell_State := .Unopened

/-- The constructor computes `rows * cols`, which has to be an `int`. -/
structure Board where
  rows : Nat
  cols : Nat
  board : Int × Int → Cell
  opened : Int := 0
  mines : Int
  area_lt : rows * cols < 2 ^ 31

def dir : List (Int × Int) := [(-1, -1), (-1, 0), (-1, 1), (0, -1), (0, 1), (1, -1), (1, 0), (1, 1)]

namespace Board

variable (b : Board)

def valid (p : Int × Int) : Prop := 0 ≤ p.1 ∧ 0 ≤ p.2 ∧ p.1 < b.rows ∧ p.2 < b.cols

instance (p : Int × Int) : Decidable (b.valid p) :=
  inferInstanceAs (Decidable (0 ≤ p.1 ∧ 0 ≤ p.2 ∧ p.1 < b.rows ∧ p.2 < b.cols))

def setState (p : Int × Int) (state : Cell_State) : Board :=
  { b with board := Function.update b.board p { b.board p with state := state } }

/-- Open a cell, and count it. -/
def openCell (p : Int × Int) : Board := { b.setState p .Opened with opened := b.opened + 1 }

/-- One neighbour of a blank cell: it is opened unless it is a mine, and is one
more blank cell to look around if no mine is near. -/
def visit (blank : Int × Int) (s : Board × List (Int × Int)) (d : Int × Int) :
    Board × List (Int × Int) :=
  let (b, q) := s
  let p := (blank.1 + d.1, blank.2 + d.2)
  if b.valid p ∧ (b.board p).state ≠ .Opened ∧ 0 ≤ (b.board p).mine then
    (b.openCell p, if (b.board p).mine = 0 then q ++ [p] else q)
  else (b, q)

/-- The loop of `openBlankCells`. -/
def blankLoop : (fuel : Nat) → Board → List (Int × Int) → Option Board
  | 0, _, _ => none
  | _ + 1, b, [] => some b
  | fuel + 1, b, blank :: q =>
      let (b, q) := dir.foldl (visit blank) (b, q)
      blankLoop fuel b q

def openBlankCells (p : Int × Int) : Option Board := blankLoop (b.rows * b.cols + 2) b [p]

/-- Open a cell. The result is false if there is a mine. -/
def play (p : Int × Int) : Option (Bool × Board) :=
  if ¬b.valid p ∨ (b.board p).state = .Opened then some (true, b)
  else if (b.board p).mine < 0 then some (false, b)
  else
    let opened := b.openCell p
    if (b.board p).mine = 0 then (opened.openBlankCells p).map fun b => (true, b)
    else some (true, opened)

/-- Toggle the guess that a cell is a mine. -/
def mark (p : Int × Int) : Board :=
  if ¬b.valid p ∨ (b.board p).state = .Opened then b
  else if (b.board p).state = .Unopened then b.setState p .Marked
  else b.setState p .Unopened

def done : Bool := b.opened + b.mines == (b.rows * b.cols : Nat)

end Board
end CppPerf.Games

/-! The constructor of `Board`. Cells are numbered, and a number stands for a row
and a column, where the grid is read only if they are valid. `draws` are the results
of the random engine, one for each round of the shuffle. -/
namespace CppPerf.Games.Board

variable (b : Board)

/-- The numbers that are drawn from `i` to the last cell. -/
def Drawn (cells : Nat) (draws : Nat → Nat) : Prop :=
  ∀ i < cells - 1, i ≤ draws i ∧ draws i ≤ cells - 1

instance (cells : Nat) (draws : Nat → Nat) : Decidable (Drawn cells draws) :=
  Nat.decidableBallLT _ _

def setMine (p : Int × Int) (mine : Int) : Board :=
  { b with board := Function.update b.board p { b.board p with mine := mine } }

/-- The row is a quotient by `m`, and the column a remainder by `n`. The source takes
the number of rows for `m`, and in the shuffle for `n` too. -/
def position (m n i : Nat) : Int × Int := ((i / m : Nat), (i % n : Nat))

def placeMine (i : Nat) : Option Board :=
  let p := position b.rows b.cols i
  if b.valid p then some (b.setMine p (-1)) else none

def swapCells (i to' : Nat) : Option Board :=
  let p := position b.rows b.rows i
  let q := position b.rows b.rows to'
  if b.valid p ∧ b.valid q then some { b with board := fun r => b.board (Equiv.swap p q r) }
  else none

def shuffleBoard (draws : Nat → Nat) : Option Board :=
  (List.range (b.rows * b.cols - 1)).foldlM
    (fun b i => if i ≠ draws i then b.swapCells i (draws i) else some b) b

/-- One neighbour of a mine: it counts the mine unless it is one. -/
def countMine (p : Int × Int) (b : Board) (d : Int × Int) : Board :=
  let q := (p.1 + d.1, p.2 + d.2)
  if b.valid q ∧ 0 ≤ (b.board q).mine then b.setMine q ((b.board q).mine + 1) else b

def countAround (b : Board) (p : Int × Int) : Board :=
  if 0 ≤ (b.board p).mine then b else dir.foldl (countMine p) b

def computeMinesAroundCell : Board :=
  (List.range b.rows).foldl (fun s (i : Nat) =>
    (List.range b.cols).foldl (fun s (j : Nat) => countAround s ((i : Int), (j : Int))) s) b

/-- A grid without mines, as the constructor starts with. -/
def empty (rows cols : Nat) (mines : Int) (h : rows * cols < 2 ^ 31) : Board where
  rows := rows
  cols := cols
  board _ := {}
  mines := mines
  area_lt := h

def construct (rows cols mines : Nat) (draws : Nat → Nat) : Option Board :=
  if h : rows * cols < 2 ^ 31 then do
    let b ← (List.range mines).foldlM placeMine (empty rows cols mines h)
    let b ← b.shuffleBoard draws
    return b.computeMinesAroundCell
  else none

end CppPerf.Games.Board
