import CppPerf.Games.MineSweeperCascade
import CppPerf.Games.MineSweeper
import Mathlib.Data.Finset.Card
import Mathlib.Data.List.ProdSigma

/-! The set-up works for square boards, and for no others: a number of a cell is
divided by the number of rows where its column is meant. -/
namespace CppPerf.Games.Board

variable {b : Board} {p q : Int × Int}

/-- Add to the numbers of the cells without a mine. -/
def countUp (b : Board) (n : Int × Int → Nat) : Board :=
  { b with board := fun q =>
      if b.valid q ∧ 0 ≤ (b.board q).mine then
        { b.board q with mine := (b.board q).mine + n q }
      else b.board q }

section Counting

theorem countUp_of_mine (n : Int × Int → Nat) (h : b.valid q ∧ 0 ≤ (b.board q).mine) :
    (b.countUp n).board q = { b.board q with mine := (b.board q).mine + n q } := if_pos h

theorem countUp_of_not (n : Int × Int → Nat) (h : ¬(b.valid q ∧ 0 ≤ (b.board q).mine)) :
    (b.countUp n).board q = b.board q := if_neg h

/-- Counting changes no mine, and makes none. -/
theorem countUp_nonneg_iff (n : Int × Int → Nat) :
    0 ≤ ((b.countUp n).board q).mine ↔ 0 ≤ (b.board q).mine := by
  by_cases h : b.valid q ∧ 0 ≤ (b.board q).mine
  · rw [countUp_of_mine n h]
    have hNonneg := h.2
    dsimp only
    omega
  · rw [countUp_of_not n h]

theorem countUp_congr {m n : Int × Int → Nat} (h : ∀ q, m q = n q) :
    b.countUp m = b.countUp n := by
  rw [funext h]

theorem countUp_eq_self {n : Int × Int → Nat}
    (h : ∀ q, b.valid q ∧ 0 ≤ (b.board q).mine → n q = 0) : b.countUp n = b := by
  refine congrArg (fun board => { b with board := board }) (funext fun q => ?_)
  split_ifs with hq
  · rw [h q hq, Int.natCast_zero, Int.add_zero]
  · rfl

theorem countUp_countUp (b : Board) (m n : Int × Int → Nat) :
    (b.countUp m).countUp n = b.countUp fun q => m q + n q := by
  have hBoard : ((b.countUp m).countUp n).board = (b.countUp fun q => m q + n q).board := by
    funext q
    by_cases h : b.valid q ∧ 0 ≤ (b.board q).mine
    · have hAgain : (b.countUp m).valid q ∧ 0 ≤ ((b.countUp m).board q).mine :=
        ⟨h.1, (countUp_nonneg_iff m).mpr h.2⟩
      rw [countUp_of_mine n hAgain, countUp_of_mine m h, countUp_of_mine _ h]
      simp only [Int.natCast_add, Int.add_assoc]
    · have hAgain : ¬((b.countUp m).valid q ∧ 0 ≤ ((b.countUp m).board q).mine) :=
        fun hBoth => h ⟨hBoth.1, (countUp_nonneg_iff m).mp hBoth.2⟩
      rw [countUp_of_not n hAgain, countUp_of_not m h, countUp_of_not _ h]
  exact congrArg (fun board => { b with board := board }) hBoard

theorem countMine_eq (p : Int × Int) (b : Board) (d : Int × Int) :
    countMine p b d = b.countUp fun q => if q = (p.1 + d.1, p.2 + d.2) then 1 else 0 := by
  rw [countMine]
  split_ifs with hCounts
  · refine congrArg (fun board => { b with board := board }) (funext fun q => ?_)
    by_cases hEq : q = (p.1 + d.1, p.2 + d.2)
    · subst hEq
      rw [Function.update_self, if_pos hCounts]
      dsimp only
      rw [if_pos rfl]
      rfl
    · rw [Function.update_of_ne hEq]
      dsimp only
      rw [if_neg hEq, Int.natCast_zero, Int.add_zero, ite_self]
  · refine (countUp_eq_self fun q hq => if_neg fun hEq => hCounts ?_).symm
    rw [← hEq]
    exact hq

theorem foldl_countMine (p : Int × Int) (ds : List (Int × Int)) (b : Board) :
    ds.foldl (countMine p) b =
      b.countUp fun q => ds.countP fun d => q = (p.1 + d.1, p.2 + d.2) := by
  induction ds generalizing b with
  | nil => exact (countUp_eq_self fun _ _ => rfl).symm
  | cons d ds ih =>
      rw [List.foldl_cons, ih, countMine_eq, countUp_countUp]
      refine countUp_congr fun q => ?_
      rw [List.countP_cons, Nat.add_comm]
      simp only [decide_eq_true_eq]

theorem kingMove_comm : KingMove q p ↔ KingMove p q := by
  rw [KingMove, KingMove, ne_comm]
  refine and_congr_right fun _ => ?_
  omega

/-- Among the directions each neighbour is met once. -/
theorem countP_dir (p q : Int × Int) :
    (dir.countP fun d => q = (p.1 + d.1, p.2 + d.2)) = if KingMove q p then 1 else 0 := by
  have hNodup : dir.Nodup := by decide
  have hCount : (dir.countP fun d => q = (p.1 + d.1, p.2 + d.2)) =
      dir.count (q.1 - p.1, q.2 - p.2) := by
    refine List.countP_congr fun d _ => ?_
    rw [decide_eq_true_eq, beq_iff_eq, Prod.ext_iff, Prod.ext_iff]
    dsimp only
    omega
  have hMove : KingMove q p ↔ (q.1 - p.1, q.2 - p.2) ∈ dir := by
    rw [kingMove_comm, kingMove_iff]
    constructor
    · rintro ⟨d, hd, rfl⟩
      simpa only [add_sub_cancel_left] using hd
    · exact fun hd => ⟨_, hd, Prod.ext (by dsimp only; omega) (by dsimp only; omega)⟩
  rw [hCount, hNodup.count]
  simp only [hMove]

theorem countAround_eq (b : Board) (p : Int × Int) :
    countAround b p =
      b.countUp fun q => if KingMove q p ∧ (b.board p).mine < 0 then 1 else 0 := by
  rw [countAround]
  split_ifs with hMine
  · exact (countUp_eq_self fun _ _ => if_neg fun h => Int.not_le.mpr h.2 hMine).symm
  · rw [foldl_countMine]
    refine countUp_congr fun q => ?_
    simp only [countP_dir, Int.not_le.mp hMine, and_true]

theorem foldl_countAround (ps : List (Int × Int)) (b : Board) :
    ps.foldl countAround b =
      b.countUp fun q => ps.countP fun p => KingMove q p ∧ (b.board p).mine < 0 := by
  induction ps generalizing b with
  | nil => exact (countUp_eq_self fun _ _ => rfl).symm
  | cons p ps ih =>
      rw [List.foldl_cons, ih, countAround_eq, countUp_countUp]
      refine countUp_congr fun q => ?_
      rw [List.countP_cons, Nat.add_comm]
      simp only [decide_eq_true_eq, ← Int.not_le, countUp_nonneg_iff]

/-- The cells in the order in which the source reads them. -/
def positions (b : Board) : List (Int × Int) :=
  (List.range b.rows ×ˢ List.range b.cols).map fun p => ((p.1 : Int), (p.2 : Int))

theorem foldl_positions (b : Board) :
    b.computeMinesAroundCell = b.positions.foldl countAround b := by
  rw [computeMinesAroundCell, positions, List.foldl_map]
  change _ = List.foldl _ _ (List.flatMap _ _)
  rw [List.foldl_flatMap]
  simp only [List.foldl_map]

theorem countP_positions (b : Board) (q : Int × Int) :
    (b.positions.countP fun p => KingMove q p ∧ (b.board p).mine < 0) = b.minesAround q := by
  have hNodup : b.positions.Nodup := by
    refine (List.nodup_range.product List.nodup_range).map fun p q hEq => ?_
    obtain ⟨hr, hc⟩ := Prod.mk.inj hEq
    exact Prod.ext (Int.ofNat.inj hr) (Int.ofNat.inj hc)
  have hCells : b.positions.toFinset = b.cells := by
    ext p
    rw [List.mem_toFinset, positions, List.mem_map, cells, Finset.mem_image]
    refine exists_congr fun p => and_congr_left fun _ => ?_
    rw [Finset.mem_product, Finset.mem_range, Finset.mem_range, List.mem_product, List.mem_range,
      List.mem_range]
  rw [List.countP_eq_length_filter, ← List.toFinset_card_of_nodup (hNodup.filter _),
    List.toFinset_filter, hCells, minesAround]
  simp only [decide_eq_true_eq]

theorem computeMinesAroundCell_eq (b : Board) :
    b.computeMinesAroundCell = b.countUp b.minesAround := by
  rw [foldl_positions, foldl_countAround]
  exact countUp_congr (countP_positions b)

end Counting

section Square

variable {n i j : Nat}

theorem position_inj (h : position n n i = position n n j) : i = j := by
  obtain ⟨hRow, hColumn⟩ := Prod.mk.inj h
  rw [← Nat.div_add_mod i n, ← Nat.div_add_mod j n, Int.ofNat.inj hRow, Int.ofNat.inj hColumn]

theorem valid_position (hRows : b.rows = n) (hCols : b.cols = n) (hi : i < n * n) :
    b.valid (position n n i) := by
  have hPos : 0 < n := Nat.pos_of_ne_zero fun h => by simp [h] at hi
  refine ⟨Int.natCast_nonneg _, Int.natCast_nonneg _, ?_, ?_⟩
  · rw [hRows]
    exact Int.ofNat_lt.mpr (Nat.div_lt_of_lt_mul hi)
  · rw [hCols]
    exact Int.ofNat_lt.mpr (Nat.mod_lt i hPos)

/-- The cells of the first numbers are mines. -/
def withMines (b : Board) (mines : Nat) : Board :=
  { b with board := fun p =>
      { mine := if p ∈ (List.range mines).map (position b.rows b.cols) then -1 else 0 } }

theorem foldlM_placeMine (h : n * n < 2 ^ 31) (mines : Int) {k : Nat} (hk : k ≤ n * n) :
    (List.range k).foldlM placeMine (empty n n mines h) =
      some ((empty n n mines h).withMines k) := by
  induction k with
  | zero => rfl
  | succ k ih =>
      have hValid : ((empty n n mines h).withMines k).valid (position n n k) :=
        valid_position rfl rfl hk
      have hStep : ((empty n n mines h).withMines k).placeMine k =
          some (((empty n n mines h).withMines k).setMine (position n n k) (-1)) :=
        if_pos hValid
      rw [List.range_succ, List.foldlM_append, ih (Nat.le_of_succ_le hk), Option.bind_eq_bind,
        Option.bind_some, List.foldlM_cons, hStep]
      refine congrArg (fun board => some { empty n n mines h with board := board })
        (funext fun p => ?_)
      rw [List.range_succ, List.map_append]
      by_cases hEq : p = position n n k
      · subst hEq
        have hMem : position n n k ∈
            (List.range k).map (position n n) ++ [k].map (position n n) :=
          List.mem_append_right _ (List.mem_singleton_self _)
        exact (Function.update_self _ _ _).trans (congrArg (Cell.mk · _) (if_pos hMem).symm)
      · rw [Function.update_of_ne hEq]
        have hMem : p ∈ (List.range k).map (position n n) ++ [k].map (position n n) ↔
            p ∈ (List.range k).map (position n n) := by
          rw [List.mem_append, List.map_singleton, List.mem_singleton, or_iff_left hEq]
        exact congrArg (Cell.mk · _) (if_congr hMem.symm rfl rfl)

theorem mineCells_withMines (hRows : b.rows = n) (hCols : b.cols = n) {k : Nat}
    (hk : k ≤ n * n) : (b.withMines k).mineCells.card = k := by
  have hCells : (b.withMines k).mineCells = (Finset.range k).image (position n n) := by
    ext p
    have hMine : ((b.withMines k).board p).mine < 0 ↔
        p ∈ (List.range k).map (position b.rows b.cols) := by
      simp only [withMines]
      split_ifs with hMem
      · exact iff_of_true (by decide) hMem
      · exact iff_of_false (by decide) hMem
    rw [mem_mineCells, hMine, hRows, hCols, List.mem_map, Finset.mem_image]
    simp only [List.mem_range, Finset.mem_range]
    refine and_iff_right_of_imp ?_
    rintro ⟨i, hi, rfl⟩
    exact valid_position hRows hCols (hi.trans_le hk)
  rw [hCells, Finset.card_image_of_injective _ fun _ _ => position_inj, Finset.card_range]

/-- The cells are those of another board in some order. -/
def Permuted (b b' : Board) : Prop :=
  ∃ σ : Equiv.Perm (Int × Int), (∀ p, b.valid (σ p) ↔ b.valid p) ∧
    b' = { b with board := fun p => b.board (σ p) }

theorem Permuted.refl (b : Board) : Permuted b b := ⟨Equiv.refl _, fun _ => Iff.rfl, rfl⟩

theorem Permuted.trans {b' b'' : Board} (h : Permuted b b') (h' : Permuted b' b'') :
    Permuted b b'' := by
  obtain ⟨σ, hσ, rfl⟩ := h
  obtain ⟨τ, hτ, rfl⟩ := h'
  exact ⟨τ.trans σ, fun p => (hσ (τ p)).trans (hτ p), rfl⟩

theorem Permuted.size_eq {b' : Board} (h : Permuted b b') :
    b'.rows = b.rows ∧ b'.cols = b.cols := by
  obtain ⟨σ, -, rfl⟩ := h
  exact ⟨rfl, rfl⟩

theorem Permuted.card_mineCells {b' : Board} (h : Permuted b b') :
    b'.mineCells.card = b.mineCells.card := by
  obtain ⟨σ, hσ, rfl⟩ := h
  rw [← Finset.card_map σ.toEmbedding]
  refine congrArg Finset.card (Finset.ext fun p => ?_)
  rw [Finset.mem_map_equiv, mem_mineCells, mem_mineCells]
  have hValid := hσ (σ.symm p)
  rw [Equiv.apply_symm_apply] at hValid
  change b.valid (σ.symm p) ∧ (b.board (σ (σ.symm p))).mine < 0 ↔ _
  rw [Equiv.apply_symm_apply, hValid]

theorem swapCells_permuted (hRows : b.rows = n) (hCols : b.cols = n) (hi : i < n * n)
    (hj : j < n * n) : ∃ b', b.swapCells i j = some b' ∧ Permuted b b' := by
  have hp := valid_position hRows hCols hi
  have hq := valid_position hRows hCols hj
  subst hRows
  refine ⟨_, if_pos ⟨hp, hq⟩, Equiv.swap _ _, fun r => ?_, rfl⟩
  rw [Equiv.swap_apply_def]
  split_ifs with hFirst hSecond
  · rw [hFirst]
    exact iff_of_true hq hp
  · rw [hSecond]
    exact iff_of_true hp hq
  · rfl

theorem shuffleBoard_permuted (hRows : b.rows = n) (hCols : b.cols = n) {draws : Nat → Nat}
    (hDraws : Drawn (n * n) draws) : ∃ b', b.shuffleBoard draws = some b' ∧ Permuted b b' := by
  have hLoop (l : List Nat) (hl : ∀ i ∈ l, i < n * n - 1) (s : Board) (hs : Permuted b s) :
      ∃ b', l.foldlM (fun b i => if i ≠ draws i then b.swapCells i (draws i) else some b) s =
        some b' ∧ Permuted b b' := by
    induction l generalizing s with
    | nil => exact ⟨s, rfl, hs⟩
    | cons i l ih =>
        obtain ⟨hi, hl⟩ := List.forall_mem_cons.mp hl
        have hDraw := hDraws i hi
        obtain ⟨s', hStep, hs'⟩ : ∃ s', (if i ≠ draws i then s.swapCells i (draws i) else some s) =
            some s' ∧ Permuted s s' := by
          split_ifs with hMoved
          · obtain ⟨hRowsEq, hColsEq⟩ := hs.size_eq
            exact swapCells_permuted (hRowsEq.trans hRows) (hColsEq.trans hCols)
              (by omega) (by omega)
          · exact ⟨s, rfl, Permuted.refl s⟩
        obtain ⟨b', hRun, hb'⟩ := ih hl s' (hs.trans hs')
        exact ⟨b', by rw [List.foldlM_cons, hStep]; exact hRun, hb'⟩
  have hArea : b.rows * b.cols = n * n := by rw [hRows, hCols]
  rw [shuffleBoard, hArea]
  exact hLoop _ (fun i hi => List.mem_range.mp hi) b (Permuted.refl b)

end Square

/-- What the set-up of a board does. -/
structure SetUp (rows cols mines : Nat) (draws : Nat → Nat) (placed shuffled b : Board) :
    Prop where
  area_lt : rows * cols < 2 ^ 31
  place : (List.range mines).foldlM placeMine (empty rows cols mines area_lt) = some placed
  card_placed : placed.mineCells.card = mines
  shuffle : placed.shuffleBoard draws = some shuffled
  permuted : Permuted placed shuffled
  construct : construct rows cols mines draws = some b
  card_mines : b.mineCells.card = mines
  numbered : b.Numbered
  fresh : b.Fresh

theorem minesAround_countUp (b : Board) (n : Int × Int → Nat) (p : Int × Int) :
    (b.countUp n).minesAround p = b.minesAround p := by
  rw [minesAround, minesAround]
  simp only [← Int.not_le, countUp_nonneg_iff]
  rfl

theorem mineCells_countUp (b : Board) (n : Int × Int → Nat) :
    (b.countUp n).mineCells = b.mineCells := by
  ext p
  rw [mem_mineCells, mem_mineCells, ← Int.not_le, countUp_nonneg_iff, Int.not_le]
  rfl

section Computed

variable {shuffled : Board}

/-- The numbers count the mines around if there are none before. -/
theorem numbered_computeMines (hZero : ∀ p, 0 ≤ (shuffled.board p).mine →
    (shuffled.board p).mine = 0) : shuffled.computeMinesAroundCell.Numbered := by
  rw [computeMinesAroundCell_eq]
  intro p hp hMine
  have hOld : 0 ≤ (shuffled.board p).mine := (countUp_nonneg_iff _).mp hMine
  have hCell : shuffled.valid p ∧ 0 ≤ (shuffled.board p).mine := ⟨hp, hOld⟩
  rw [minesAround_countUp, countUp_of_mine _ hCell, hZero p hOld]
  exact Int.zero_add _

theorem fresh_computeMines (h : shuffled.Fresh) : shuffled.computeMinesAroundCell.Fresh := by
  rw [computeMinesAroundCell_eq]
  refine ⟨h.opened_eq, fun p hp => ?_, ?_⟩
  · rw [countUp]
    dsimp only
    split_ifs
    · exact h.state_ne p hp
    · exact h.state_ne p hp
  · rw [mineCells_countUp]
    exact h.mines_eq

end Computed

theorem setUp_of_square {n mines : Nat} (h : n * n < 2 ^ 31) (hMines : mines ≤ n * n)
    {draws : Nat → Nat} (hDraws : Drawn (n * n) draws) :
    ∃ placed shuffled b, SetUp n n mines draws placed shuffled b := by
  have hPlace := foldlM_placeMine h mines hMines
  have hCard : ((empty n n mines h).withMines mines).mineCells.card = mines :=
    mineCells_withMines rfl rfl hMines
  obtain ⟨shuffled, hShuffle, hPermuted⟩ :=
    shuffleBoard_permuted (b := (empty n n mines h).withMines mines) rfl rfl hDraws
  have hConstruct : construct n n mines draws = some shuffled.computeMinesAroundCell := by
    rw [construct, dif_pos h, hPlace, Option.bind_eq_bind, Option.bind_some, hShuffle]
    rfl
  have hMines : shuffled.mineCells.card = mines := by rw [hPermuted.card_mineCells, hCard]
  have hZero (p : Int × Int) (hMine : 0 ≤ (shuffled.board p).mine) :
      (shuffled.board p).mine = 0 := by
    obtain ⟨σ, -, rfl⟩ := hPermuted
    revert hMine
    simp only [withMines]
    split_ifs
    · intro hMine
      omega
    · exact fun _ => rfl
  have hFresh : shuffled.Fresh := by
    obtain ⟨σ, -, rfl⟩ := hPermuted
    refine ⟨rfl, fun p _ => by simp [withMines, empty], ?_⟩
    rw [hMines]
    rfl
  have hComputed : shuffled.computeMinesAroundCell.mineCells.card = mines := by
    rw [computeMinesAroundCell_eq, mineCells_countUp, hMines]
  exact ⟨_, shuffled, _, h, hPlace, hCard, hShuffle, hPermuted, hConstruct, hComputed,
    numbered_computeMines hZero, fresh_computeMines hFresh⟩

theorem foldlM_placeMine_size {l : List Nat} {b' : Board}
    (h : l.foldlM placeMine b = some b') : b'.rows = b.rows ∧ b'.cols = b.cols := by
  induction l generalizing b with
  | nil => cases h; exact ⟨rfl, rfl⟩
  | cons i l ih =>
      rw [List.foldlM_cons] at h
      obtain ⟨s, hs, hRest⟩ := Option.bind_eq_some_iff.mp h
      rw [placeMine] at hs
      split_ifs at hs
      cases hs
      exact ih (b := b.setMine _ _) hRest

/-- The first round of the shuffle can draw a cell that is not there. -/
theorem shuffleBoard_fails {draws : Nat → Nat} (h : ¬b.valid (position b.rows b.rows (draws 0)))
    (hMoved : draws 0 ≠ 0) (hCells : 1 < b.rows * b.cols) : b.shuffleBoard draws = none := by
  obtain ⟨k, hk⟩ : ∃ k, b.rows * b.cols - 1 = k + 1 := ⟨b.rows * b.cols - 2, by omega⟩
  have hStep : b.swapCells 0 (draws 0) = none := if_neg fun hBoth => h hBoth.2
  rw [shuffleBoard, hk, List.range_succ_eq_map, List.foldlM_cons, if_pos hMoved.symm, hStep]
  rfl

/-- The draw that a board of another shape is not ready for. -/
def badDraw (rows cols : Nat) : Nat := if rows < cols then rows * cols - 1 else cols

theorem badDraw_le {rows cols : Nat} (hRows : 1 ≤ rows) (hCols : 1 ≤ cols) (hNe : rows ≠ cols) :
    1 < rows * cols ∧ badDraw rows cols ≤ rows * cols - 1 ∧ badDraw rows cols ≠ 0 := by
  rw [badDraw]
  split_ifs with hWide
  · have hMul : 1 * cols ≤ rows * cols := Nat.mul_le_mul_right _ hRows
    omega
  · have hMul : 2 * cols ≤ rows * cols := Nat.mul_le_mul_right _ (by omega)
    omega

/-- The row is too large if there are more columns, the column if there are more rows. -/
theorem not_valid_badDraw (hRows : 1 ≤ b.rows) (hNe : b.rows ≠ b.cols) :
    ¬b.valid (position b.rows b.rows (badDraw b.rows b.cols)) := by
  rw [badDraw]
  split_ifs with hWide
  · obtain ⟨c, hc⟩ : ∃ c, b.cols = c + 1 := ⟨b.cols - 1, by omega⟩
    have hMul : b.rows * b.cols = b.rows * c + b.rows := by rw [hc, Nat.mul_succ]
    intro hValid
    have hRow : c ≤ (b.rows * b.cols - 1) / b.rows := by
      rw [Nat.le_div_iff_mul_le hRows, Nat.mul_comm, hMul]
      omega
    have hLt := Int.ofNat_lt.mp hValid.2.2.1
    omega
  · intro hValid
    have hLt := Int.ofNat_lt.mp hValid.2.2.2
    rw [Nat.mod_eq_of_lt (by omega)] at hLt
    exact Nat.lt_irrefl _ hLt

/-- The set-up works, whatever is drawn, if and only if the board is square and its
area an `int`. -/
theorem setUp_iff (rows cols mines : Nat) (hRows : 1 ≤ rows) (hCols : 1 ≤ cols)
    (hMines : mines ≤ rows * cols) :
    (∀ draws, Drawn (rows * cols) draws →
      ∃ placed shuffled b, SetUp rows cols mines draws placed shuffled b) ↔
      rows = cols ∧ rows * cols < 2 ^ 31 := by
  refine ⟨fun h => ?_, ?_⟩
  · obtain ⟨_, _, _, hSame⟩ := h id fun i hi => ⟨Nat.le_refl i, Nat.le_of_lt hi⟩
    refine ⟨?_, hSame.area_lt⟩
    by_contra hNe
    obtain ⟨hCells, hLe, hMoved⟩ := badDraw_le hRows hCols hNe
    let draws (i : Nat) : Nat := if i = 0 then badDraw rows cols else i
    have hDraws : Drawn (rows * cols) draws := by
      intro i hi
      dsimp only [draws]
      split_ifs
      · omega
      · omega
    obtain ⟨placed, shuffled, b, hSetUp⟩ := h draws hDraws
    obtain ⟨rfl, rfl⟩ : placed.rows = rows ∧ placed.cols = cols :=
      foldlM_placeMine_size hSetUp.place
    have hNone : placed.shuffleBoard draws = none :=
      shuffleBoard_fails (not_valid_badDraw hRows hNe) hMoved hCells
    rw [hSetUp.shuffle] at hNone
    cases hNone
  · rintro ⟨rfl, hArea⟩ draws hDraws
    exact setUp_of_square hArea hMines hDraws

/-- Four cells, of which the first is swapped with the last. -/
theorem setUp_iff_two : ∃ placed shuffled b, SetUp 2 2 1 (fun _ => 3) placed shuffled b :=
  (setUp_iff 2 2 1 (by decide) (by decide) (by decide)).mpr (by decide) (fun _ => 3)
    (by decide)

/-- With three columns the last cell is looked for in a third row. -/
theorem not_setUp_two_three :
    Drawn (2 * 3) (fun _ => 5) ∧ construct 2 3 1 (fun _ => 5) = none ∧
      ¬∃ placed shuffled b, SetUp 2 3 1 (fun _ => 5) placed shuffled b := by
  have hNone : construct 2 3 1 (fun _ => 5) = none := rfl
  refine ⟨by decide, hNone, ?_⟩
  rintro ⟨placed, shuffled, b, h⟩
  have hSome := h.construct
  rw [hNone] at hSome
  cases hSome

end CppPerf.Games.Board
