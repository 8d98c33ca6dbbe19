import CppPerf.Games.MineSweeper

/-! Every cell that is opened is counted once, however the cells around blank ones
come to be opened. -/
namespace CppPerf.Games.Board

open Transition

variable (b : Board)

def cells : Finset (Int × Int) :=
  (Finset.range b.rows ×ˢ Finset.range b.cols).image fun p => ((p.1 : Int), (p.2 : Int))

def openedCells : Finset (Int × Int) := b.cells.filter fun p => (b.board p).state = .Opened

def mineCells : Finset (Int × Int) := b.cells.filter fun p => (b.board p).mine < 0

/-- The counters are right, and no mine is opened. -/
structure Counts : Prop where
  opened_eq : b.opened = b.openedCells.card
  mines_eq : b.mines = b.mineCells.card
  no_mine : ∀ p ∈ b.openedCells, 0 ≤ (b.board p).mine

/-- The size of the board and the mines stay; what is opened stays so. -/
structure Keeps (b' : Board) : Prop where
  rows_eq : b'.rows = b.rows
  cols_eq : b'.cols = b.cols
  mines_eq : b'.mines = b.mines
  mine_eq : ∀ p, (b'.board p).mine = (b.board p).mine
  opened : ∀ p, (b.board p).state = .Opened → (b'.board p).state = .Opened

variable {b} {b' : Board} {p : Int × Int} {state : Cell_State}

theorem mem_cells : p ∈ b.cells ↔ b.valid p := by
  rw [cells, Finset.mem_image]
  constructor
  · rintro ⟨⟨r, c⟩, hMem, rfl⟩
    obtain ⟨hr, hc⟩ := Finset.mem_product.mp hMem
    rw [Finset.mem_range] at hr hc
    exact ⟨Int.natCast_nonneg r, Int.natCast_nonneg c, Int.ofNat_lt.mpr hr, Int.ofNat_lt.mpr hc⟩
  · rintro ⟨hr, hc, hRows, hCols⟩
    refine ⟨(p.1.toNat, p.2.toNat), Finset.mem_product.mpr ⟨?_, ?_⟩, ?_⟩
    · rw [Finset.mem_range]
      dsimp only
      omega
    · rw [Finset.mem_range]
      dsimp only
      omega
    · exact Prod.ext (Int.toNat_of_nonneg hr) (Int.toNat_of_nonneg hc)

theorem card_cells (b : Board) : b.cells.card = b.rows * b.cols := by
  rw [cells, Finset.card_image_of_injective, Finset.card_product, Finset.card_range,
    Finset.card_range]
  intro p q hEq
  obtain ⟨hr, hc⟩ := Prod.mk.inj hEq
  exact Prod.ext (Int.ofNat.inj hr) (Int.ofNat.inj hc)

theorem mem_openedCells : p ∈ b.openedCells ↔ b.valid p ∧ (b.board p).state = .Opened := by
  rw [openedCells, Finset.mem_filter, mem_cells]

theorem mem_mineCells : p ∈ b.mineCells ↔ b.valid p ∧ (b.board p).mine < 0 := by
  rw [mineCells, Finset.mem_filter, mem_cells]

theorem setState_self (b : Board) (p : Int × Int) (state : Cell_State) :
    (b.setState p state).board p = { b.board p with state := state } := Function.update_self _ _ _

theorem setState_of_ne (b : Board) (state : Cell_State) {q : Int × Int} (h : q ≠ p) :
    (b.setState p state).board q = b.board q := Function.update_of_ne h _ _

theorem setState_mine (b : Board) (p : Int × Int) (state : Cell_State) (q : Int × Int) :
    ((b.setState p state).board q).mine = (b.board q).mine := by
  by_cases hEq : q = p
  · rw [hEq, setState_self]
  · rw [setState_of_ne b state hEq]

namespace Keeps

theorem refl (b : Board) : Keeps b b := ⟨rfl, rfl, rfl, fun _ => rfl, fun _ h => h⟩

theorem trans {b'' : Board} (h : Keeps b b') (h' : Keeps b' b'') : Keeps b b'' where
  rows_eq := h'.rows_eq.trans h.rows_eq
  cols_eq := h'.cols_eq.trans h.cols_eq
  mines_eq := h'.mines_eq.trans h.mines_eq
  mine_eq p := (h'.mine_eq p).trans (h.mine_eq p)
  opened p hp := h'.opened p (h.opened p hp)

theorem setState (b : Board) (h : (b.board p).state = .Opened → state = .Opened) :
    Keeps b (b.setState p state) where
  rows_eq := rfl
  cols_eq := rfl
  mines_eq := rfl
  mine_eq := setState_mine b p state
  opened q hq := by
    by_cases hEq : q = p
    · subst hEq
      rw [setState_self]
      exact h hq
    · rw [setState_of_ne b state hEq, hq]

theorem openCell (b : Board) (p : Int × Int) : Keeps b (b.openCell p) := by
  have h : Keeps b (b.setState p .Opened) := setState b fun _ => rfl
  exact ⟨h.rows_eq, h.cols_eq, h.mines_eq, h.mine_eq, h.opened⟩

end Keeps

theorem openCell_state (b : Board) (p q : Int × Int) :
    ((b.openCell p).board q).state = .Opened ↔ q = p ∨ (b.board q).state = .Opened := by
  by_cases hEq : q = p
  · subst hEq
    exact iff_of_true (congrArg Cell.state (setState_self b q .Opened)) (Or.inl rfl)
  · rw [or_iff_right hEq, ← setState_of_ne b .Opened hEq]
    rfl

theorem openedCells_openCell (hValid : b.valid p) :
    (b.openCell p).openedCells = insert p b.openedCells := by
  ext q
  rw [mem_openedCells, Finset.mem_insert, mem_openedCells, openCell_state, and_or_left]
  exact or_congr_left (and_iff_right_of_imp fun hEq => hEq ▸ hValid)

namespace Counts

theorem mineCells_eq (b : Board) (p : Int × Int) (state : Cell_State) :
    (b.setState p state).mineCells = b.mineCells := by
  ext q
  rw [mem_mineCells, mem_mineCells, setState_mine]
  rfl

/-- A cell that is not opened before is one more. -/
theorem openCell (h : b.Counts) (hValid : b.valid p) (hState : (b.board p).state ≠ .Opened)
    (hMine : 0 ≤ (b.board p).mine) : (b.openCell p).Counts := by
  have hCells := openedCells_openCell hValid
  have hNew : p ∉ b.openedCells := fun hMem => hState (mem_openedCells.mp hMem).2
  refine ⟨?_, ?_, ?_⟩
  · rw [hCells, Finset.card_insert_of_notMem hNew, Int.natCast_add, ← h.opened_eq]
    rfl
  · exact h.mines_eq.trans (congrArg _ (congrArg Finset.card (mineCells_eq b p .Opened).symm))
  · intro q hq
    change 0 ≤ ((b.setState p .Opened).board q).mine
    rw [setState_mine]
    rw [hCells, Finset.mem_insert] at hq
    rcases hq with rfl | hOld
    · exact hMine
    · exact h.no_mine q hOld

/-- A guess changes no count. -/
theorem guess (h : b.Counts) (hOld : (b.board p).state ≠ .Opened) (hNew : state ≠ .Opened) :
    (b.setState p state).Counts := by
  have hCells : (b.setState p state).openedCells = b.openedCells := by
    ext q
    rw [mem_openedCells, mem_openedCells]
    refine and_congr_right fun _ => ?_
    by_cases hEq : q = p
    · subst hEq
      rw [setState_self]
      exact iff_of_false hNew hOld
    · rw [setState_of_ne b state hEq]
  refine ⟨?_, ?_, ?_⟩
  · rw [hCells]
    exact h.opened_eq
  · rw [mineCells_eq]
    exact h.mines_eq
  · intro q hq
    rw [setState_mine]
    rw [hCells] at hq
    exact h.no_mine q hq

theorem opened_le (h : b.Counts) : b.opened ≤ (b.rows * b.cols : Nat) := by
  rw [h.opened_eq, ← card_cells]
  exact Int.ofNat_le.mpr (Finset.card_filter_le _ _)

theorem disjoint (h : b.Counts) : Disjoint b.openedCells b.mineCells := by
  rw [Finset.disjoint_left]
  intro p hp hMine
  have hNeg := (mem_mineCells.mp hMine).2
  have hNonneg := h.no_mine p hp
  omega

/-- The sum that `done` computes is the size of a part of the board. -/
theorem opened_add_mines (h : b.Counts) :
    b.opened + b.mines = (b.openedCells ∪ b.mineCells).card := by
  rw [Finset.card_union_of_disjoint h.disjoint, Int.natCast_add, h.opened_eq, h.mines_eq]

/-- No `int` is exceeded. -/
theorem opened_add_mines_lt (h : b.Counts) : b.opened + b.mines < 2 ^ 31 := by
  have hSub : b.openedCells ∪ b.mineCells ⊆ b.cells :=
    Finset.union_subset (Finset.filter_subset _ _) (Finset.filter_subset _ _)
  have hCard := Finset.card_le_card hSub
  rw [card_cells] at hCard
  have hArea := b.area_lt
  rw [h.opened_add_mines]
  omega

theorem done_iff (h : b.Counts) :
    b.done = true ↔ ∀ p, b.valid p → 0 ≤ (b.board p).mine → (b.board p).state = .Opened := by
  have hSub : b.openedCells ∪ b.mineCells ⊆ b.cells :=
    Finset.union_subset (Finset.filter_subset _ _) (Finset.filter_subset _ _)
  rw [done, beq_iff_eq, h.opened_add_mines, ← card_cells, Int.ofNat_inj]
  constructor
  · intro hCard p hp hMine
    have hMem : p ∈ b.openedCells ∪ b.mineCells := by
      rw [Finset.eq_of_subset_of_card_le hSub (Nat.le_of_eq hCard.symm)]
      exact mem_cells.mpr hp
    rcases Finset.mem_union.mp hMem with hOpened | hNeg
    · exact (mem_openedCells.mp hOpened).2
    · exact absurd (mem_mineCells.mp hNeg).2 (Int.not_lt.mpr hMine)
  · intro hAll
    congr 1
    apply Finset.Subset.antisymm hSub
    intro p hp
    rw [mem_cells] at hp
    by_cases hMine : 0 ≤ (b.board p).mine
    · exact Finset.mem_union_left _ (mem_openedCells.mpr ⟨hp, hAll p hp hMine⟩)
    · exact Finset.mem_union_right _ (mem_mineCells.mpr ⟨hp, Int.not_le.mp hMine⟩)

end Counts

/-- A part of the loop has kept the board; every cell that it has put into the
queue is one that it has opened. -/
structure Grows (s s' : Board × List (Int × Int)) : Prop where
  counts : s.1.Counts → s'.1.Counts
  keeps : s.1.Keeps s'.1
  length_le : s'.2.length + s.1.opened ≤ s.2.length + s'.1.opened

namespace Grows

variable {s s' s'' : Board × List (Int × Int)}

theorem refl (s : Board × List (Int × Int)) : Grows s s :=
  ⟨id, Keeps.refl s.1, Int.le_refl _⟩

theorem trans (h : Grows s s') (h' : Grows s' s'') : Grows s s'' where
  counts hCounts := h'.counts (h.counts hCounts)
  keeps := h.keeps.trans h'.keeps
  length_le := by
    have hFirst := h.length_le
    have hSecond := h'.length_le
    omega

theorem visit (blank : Int × Int) (s : Board × List (Int × Int)) (d : Int × Int) :
    Grows s (visit blank s d) := by
  obtain ⟨b, q⟩ := s
  rw [Board.visit]
  split_ifs with hOpen hBlank
  · refine ⟨fun h => h.openCell hOpen.1 hOpen.2.1 hOpen.2.2, ?_, ?_⟩
    · exact Keeps.openCell b _
    · rw [List.length_append, List.length_singleton, Board.openCell]
      dsimp only
      omega
  · refine ⟨fun h => h.openCell hOpen.1 hOpen.2.1 hOpen.2.2, ?_, ?_⟩
    · exact Keeps.openCell b _
    · rw [Board.openCell]
      dsimp only
      omega
  · exact refl _

theorem foldl (blank : Int × Int) (ds : List (Int × Int)) (s : Board × List (Int × Int)) :
    Grows s (ds.foldl (Board.visit blank) s) := by
  induction ds generalizing s with
  | nil => exact refl s
  | cons d ds ih => exact (visit blank s d).trans (ih _)

end Grows

/-- A round takes one cell out of the queue, and puts in at most those it opens. -/
theorem blankLoop_spec {fuel : Nat} (b : Board) (q : List (Int × Int)) (h : b.Counts)
    (hFuel : q.length + (b.rows * b.cols : Nat) < fuel + b.opened) :
    ∃ b', blankLoop fuel b q = some b' ∧ b'.Counts ∧ b.Keeps b' := by
  induction fuel generalizing b q with
  | zero =>
      have hLe := h.opened_le
      omega
  | succ fuel ih =>
      cases q with
      | nil => exact ⟨b, rfl, h, Keeps.refl b⟩
      | cons blank q =>
          have hGrows := Grows.foldl blank dir (b, q)
          rw [blankLoop]
          generalize dir.foldl (visit blank) (b, q) = s at hGrows
          have hLength := hGrows.length_le
          have hRows := hGrows.keeps.rows_eq
          have hCols := hGrows.keeps.cols_eq
          dsimp only at hLength hRows hCols
          rw [List.length_cons] at hFuel
          obtain ⟨b', hRun, hCounts, hKeeps⟩ := ih s.1 s.2 (hGrows.counts h)
            (by rw [hRows, hCols]; push_cast at hFuel ⊢; omega)
          exact ⟨b', hRun, hCounts, hGrows.keeps.trans hKeeps⟩

/-- Playing any cell returns. -/
theorem play_spec (h : b.Counts) (p : Int × Int) :
    ∃ ok b', b.play p = some (ok, b') ∧ b'.Counts ∧ b.Keeps b' := by
  rw [play]
  split_ifs with hRefused hMine hBlank
  · exact ⟨true, b, rfl, h, Keeps.refl b⟩
  · exact ⟨false, b, rfl, h, Keeps.refl b⟩
  · obtain ⟨hValid, hState⟩ := not_or.mp hRefused
    have hCounts := h.openCell (not_not.mp hValid) hState (Int.not_lt.mp hMine)
    have hKeeps := Keeps.openCell b p
    have hFuel : [p].length + ((b.openCell p).rows * (b.openCell p).cols : Nat) <
        ((b.rows * b.cols + 2 : Nat) : Int) + (b.openCell p).opened := by
      have hNonneg : 0 ≤ (b.openCell p).opened := by
        rw [hCounts.opened_eq]
        exact Int.natCast_nonneg _
      change ((1 : Nat) : Int) + (b.rows * b.cols : Nat) < _
      push_cast
      omega
    obtain ⟨b', hRun, hCounts', hKeeps'⟩ := blankLoop_spec (b.openCell p) [p] hCounts hFuel
    exact ⟨true, b', congrArg (Option.map _) hRun, hCounts', hKeeps.trans hKeeps'⟩
  · obtain ⟨hValid, hState⟩ := not_or.mp hRefused
    refine ⟨true, b.openCell p, rfl, ?_, Keeps.openCell b p⟩
    exact h.openCell (not_not.mp hValid) hState (Int.not_lt.mp hMine)

theorem mark_spec (h : b.Counts) (p : Int × Int) : (b.mark p).Counts ∧ b.Keeps (b.mark p) := by
  rw [mark]
  split_ifs with hRefused hUnopened
  · exact ⟨h, Keeps.refl b⟩
  · have hState := (not_or.mp hRefused).2
    exact ⟨h.guess hState (by decide), Keeps.setState b fun hOpened => absurd hOpened hState⟩
  · have hState := (not_or.mp hRefused).2
    exact ⟨h.guess hState (by decide), Keeps.setState b fun hOpened => absurd hOpened hState⟩

inductive Call where
  | play (p : Int × Int)
  | mark (p : Int × Int)

/-- A call of a game that goes on: there is no next state after a mine. -/
def step : Step Board Call
  | b, .play p => (b.play p).bind fun (ok, b) => if ok then some b else none
  | b, .mark p => some (b.mark p)

/-- Nothing is opened yet, and the number of mines is right. -/
structure Fresh (b : Board) : Prop where
  opened_eq : b.opened = 0
  state_ne : ∀ p, b.valid p → (b.board p).state ≠ .Opened
  mines_eq : b.mines = b.mineCells.card

theorem Fresh.counts (h : b.Fresh) : b.Counts := by
  have hNone : b.openedCells = ∅ := by
    ext p
    rw [mem_openedCells]
    exact iff_of_false (fun hp => h.state_ne p hp.1 hp.2) (Finset.notMem_empty p)
  refine ⟨?_, h.mines_eq, ?_⟩
  · rw [hNone, h.opened_eq]
    rfl
  · intro p hp
    rw [hNone] at hp
    exact absurd hp (Finset.notMem_empty p)

/-- A call keeps the counts, and what is opened. -/
theorem step_spec (h : b.Counts) {call : Call} (hStep : step b call = some b') :
    b'.Counts ∧ b.Keeps b' := by
  cases call with
  | play p =>
      obtain ⟨ok, next, hPlay, hCounts, hKeeps⟩ := play_spec h p
      rw [step, hPlay, Option.bind_some] at hStep
      obtain ⟨-, rfl⟩ := of_ite_eq_some hStep
      exact ⟨hCounts, hKeeps⟩
  | mark p =>
      rw [step, Option.some.injEq] at hStep
      exact hStep ▸ mark_spec h p

theorem run_spec (h : b.Counts) {calls : List Call} (hRun : run step b calls = some b') :
    b'.Counts ∧ b.Keeps b' := by
  induction calls generalizing b with
  | nil =>
      obtain rfl : b = b' := by simpa using hRun
      exact ⟨h, Keeps.refl b⟩
  | cons call rest ih =>
      obtain ⟨next, hNext, hRest⟩ := run_cons_eq_some hRun
      obtain ⟨hCounts, hKeeps⟩ := step_spec h hNext
      obtain ⟨hLast, hKeeps'⟩ := ih hCounts hRest
      exact ⟨hLast, hKeeps.trans hKeeps'⟩

/-- In every state that a game without a hit reaches, the counters are right, no
mine is opened, every call returns, and the game is done when every other cell is
opened; what is opened stays so in the rest of the game. -/
theorem game_counts (b : Board) (hFresh : b.Fresh) (first second : List Call) {middle : Board}
    (hRun : run step b first = some middle) :
    middle.opened = middle.openedCells.card ∧
      (∀ p, middle.valid p → (middle.board p).state = .Opened → 0 ≤ (middle.board p).mine) ∧
      (∀ p, (middle.play p).isSome) ∧
      (middle.done = true ↔ ∀ p, middle.valid p → 0 ≤ (middle.board p).mine →
        (middle.board p).state = .Opened) ∧
      ∀ last, run step middle second = some last → ∀ p, (middle.board p).state = .Opened →
        (last.board p).state = .Opened := by
  obtain ⟨h, -⟩ := run_spec hFresh.counts hRun
  refine ⟨h.opened_eq, fun p hp hState => h.no_mine p (mem_openedCells.mpr ⟨hp, hState⟩),
    fun p => ?_, h.done_iff, fun last hLast p hp => (run_spec h hLast).2.opened p hp⟩
  obtain ⟨ok, next, hPlay, -⟩ := play_spec h p
  rw [hPlay]
  rfl

/-- One row: a mine, its neighbour, and two blank cells. -/
def row : Board where
  rows := 1
  cols := 4
  board p := if p = (0, 0) then { mine := -1 } else if p = (0, 1) then { mine := 1 } else {}
  mines := 1
  area_lt := by decide

theorem row_fresh : row.Fresh where
  opened_eq := rfl
  state_ne p _ := by
    dsimp only [row]
    split_ifs
    · decide
    · decide
    · decide
  mines_eq := by decide

/-- The marked blank cell is opened with the last one, and the game is done. -/
theorem game_counts_row :
    ∃ middle, run step row [.mark (0, 2), .play (0, 3)] = some middle ∧ middle.opened = 3 ∧
      middle.opened = middle.openedCells.card ∧ middle.done = true :=
  ⟨_, rfl, rfl, (game_counts row row_fresh [.mark (0, 2), .play (0, 3)] [] rfl).1, rfl⟩

end CppPerf.Games.Board
