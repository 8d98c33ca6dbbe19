import CppPerf.Games.MineSweeperCounts
import Mathlib.Logic.Relation

/-! Playing a blank cell opens what can be reached over blank cells. The cells with
numbers around them are opened too, but not looked around. -/
namespace CppPerf.Games

open Relation

/-- A move to one of the up to eight neighbours. -/
def KingMove (p q : Int × Int) : Prop :=
  q ≠ p ∧ (p.1 - 1 ≤ q.1 ∧ q.1 ≤ p.1 + 1) ∧ p.2 - 1 ≤ q.2 ∧ q.2 ≤ p.2 + 1

instance (p q : Int × Int) : Decidable (KingMove p q) := inferInstanceAs (Decidable (_ ∧ _))

theorem kingMove_iff {p q : Int × Int} :
    KingMove p q ↔ ∃ d ∈ dir, q = (p.1 + d.1, p.2 + d.2) := by
  obtain ⟨r, c⟩ := p
  obtain ⟨r', c'⟩ := q
  simp only [KingMove, dir, List.mem_cons, List.not_mem_nil, or_false, exists_eq_or_imp,
    exists_eq_left, ne_eq, Prod.mk.injEq]
  omega

namespace Board

variable (b : Board)

def minesAround (p : Int × Int) : Nat :=
  (b.cells.filter fun q => KingMove p q ∧ (b.board q).mine < 0).card

/-- Every cell without a mine has the number of mines around it. -/
def Numbered : Prop :=
  ∀ p, b.valid p → 0 ≤ (b.board p).mine → (b.board p).mine = b.minesAround p

/-- A cell that is not open yet and has no mine around it. -/
structure Blank (p : Int × Int) : Prop where
  valid : b.valid p
  state_ne : (b.board p).state ≠ .Opened
  mine_eq : (b.board p).mine = 0

/-- The moves of a chain leave blank cells only. -/
def Chain : Int × Int → Int × Int → Prop := ReflTransGen fun p q => b.Blank p ∧ KingMove p q

variable {b} {b' : Board} {p q blank : Int × Int}

theorem Keeps.valid_iff (h : b.Keeps b') : b'.valid p ↔ b.valid p := by
  rw [valid, valid, h.rows_eq, h.cols_eq]

theorem Numbered.mine_nonneg (h : b.Numbered) (hp : b.Blank p) (hMove : KingMove p q)
    (hq : b.valid q) : 0 ≤ (b.board q).mine := by
  by_contra hMine
  have hCount := h p hp.valid (Int.le_of_eq hp.mine_eq.symm)
  rw [hp.mine_eq] at hCount
  have hNone : b.minesAround p = 0 := (Int.ofNat.inj hCount).symm
  rw [minesAround, Finset.card_eq_zero] at hNone
  refine Finset.notMem_empty q (hNone ▸ Finset.mem_filter.mpr ⟨mem_cells.mpr hq, hMove, ?_⟩)
  exact Int.not_le.mp hMine

/-- What looking at some neighbours of a cell does to the board and the queue. -/
structure Around (blank : Int × Int) (ds : List (Int × Int)) (s s' : Board × List (Int × Int)) :
    Prop where
  keeps : s.1.Keeps s'.1
  opened_iff : ∀ p, (s'.1.board p).state = .Opened ↔ (s.1.board p).state = .Opened ∨
    s.1.valid p ∧ 0 ≤ (s.1.board p).mine ∧ ∃ d ∈ ds, p = (blank.1 + d.1, blank.2 + d.2)
  queue_iff : ∀ p, p ∈ s'.2 ↔ p ∈ s.2 ∨
    (s'.1.board p).state = .Opened ∧ (s.1.board p).state ≠ .Opened ∧ (s.1.board p).mine = 0
  length_le : s'.2.length + s.1.openedCells.card ≤ s.2.length + s'.1.openedCells.card

namespace Around

theorem nil (blank : Int × Int) (s : Board × List (Int × Int)) : Around blank [] s s where
  keeps := Keeps.refl s.1
  opened_iff p := by simp
  queue_iff p := by
    refine (or_iff_left ?_).symm
    rintro ⟨hOpened, hNot, -⟩
    exact hNot hOpened
  length_le := Nat.le_refl _

/-- A cell that is opened, and put into the queue if it is blank. -/
theorem openCell {d : Int × Int} (hd : p = (blank.1 + d.1, blank.2 + d.2)) (hValid : b.valid p)
    (hState : (b.board p).state ≠ .Opened) (hMine : 0 ≤ (b.board p).mine) (q : List (Int × Int)) :
    Around blank [d] (b, q)
      (b.openCell p, if (b.board p).mine = 0 then q ++ [p] else q) where
  keeps := Keeps.openCell b p
  opened_iff r := by
    rw [openCell_state, or_comm]
    refine or_congr_right ⟨?_, ?_⟩
    · rintro rfl
      exact ⟨hValid, hMine, d, List.mem_singleton_self d, hd⟩
    · rintro ⟨-, -, e, he, hr⟩
      rw [hr, hd, List.mem_singleton.mp he]
  queue_iff r := by
    have hNew : ((b.openCell p).board r).state = .Opened ∧ (b.board r).state ≠ .Opened ↔ r = p := by
      rw [openCell_state]
      refine ⟨fun h => h.1.resolve_right h.2, ?_⟩
      rintro rfl
      exact ⟨Or.inl rfl, hState⟩
    rw [← and_assoc, hNew]
    split_ifs with hBlank
    · rw [List.mem_append, List.mem_singleton]
      exact or_congr_right (and_iff_left_of_imp fun h => h ▸ hBlank).symm
    · refine (or_iff_left ?_).symm
      rintro ⟨rfl, h⟩
      exact hBlank h
  length_le := by
    have hNew : p ∉ b.openedCells := fun hMem => hState (mem_openedCells.mp hMem).2
    rw [openedCells_openCell hValid, Finset.card_insert_of_notMem hNew]
    dsimp only
    split_ifs
    · rw [List.length_append, List.length_singleton]
      omega
    · omega

theorem visit (blank : Int × Int) (s : Board × List (Int × Int)) (d : Int × Int) :
    Around blank [d] s (visit blank s d) := by
  obtain ⟨b, q⟩ := s
  rw [Board.visit]
  split
  · rename_i hOpen
    exact openCell rfl hOpen.1 hOpen.2.1 hOpen.2.2 q
  · rename_i hOpen
    refine { nil blank (b, q) with opened_iff := fun p => (or_iff_left_of_imp ?_).symm }
    rintro ⟨hValid, hMine, e, he, rfl⟩
    by_contra hState
    rw [List.mem_singleton.mp he] at hValid hMine hState
    exact hOpen ⟨hValid, hState, hMine⟩

theorem trans {ds es : List (Int × Int)} {s s' s'' : Board × List (Int × Int)}
    (h : Around blank ds s s') (h' : Around blank es s' s'') :
    Around blank (ds ++ es) s s'' where
  keeps := h.keeps.trans h'.keeps
  opened_iff p := by
    rw [h'.opened_iff, h.opened_iff, h.keeps.valid_iff, h.keeps.mine_eq, or_assoc]
    simp only [List.mem_append, or_and_right, exists_or, and_or_left]
  queue_iff p := by
    rw [h'.queue_iff, h.queue_iff, h.keeps.mine_eq]
    have hFirst := h.keeps.opened p
    have hSecond := h'.keeps.opened p
    tauto
  length_le := by
    have hFirst := h.length_le
    have hSecond := h'.length_le
    omega

theorem foldl (blank : Int × Int) (ds : List (Int × Int)) (s : Board × List (Int × Int)) :
    Around blank ds s (ds.foldl (Board.visit blank) s) := by
  induction ds generalizing s with
  | nil => exact nil blank s
  | cons d ds ih => exact (visit blank s d).trans (ih _)

end Around

/-- The cells that were opened are linked to the first one, and those around a blank
cell that was opened are open or will be looked at. -/
structure Flood (b : Board) (start : Int × Int) (b' : Board) (q : List (Int × Int)) : Prop where
  keeps : b.Keeps b'
  start_opened : (b'.board start).state = .Opened
  sound : ∀ p, (b'.board p).state = .Opened → (b.board p).state ≠ .Opened →
    b.valid p ∧ b.Chain start p
  queue : ∀ p ∈ q, b.Blank p ∧ b.Chain start p
  closed : ∀ p, b.Blank p → (b'.board p).state = .Opened → p ∈ q ∨
    ∀ r, KingMove p r → b.valid r → 0 ≤ (b.board r).mine → (b'.board r).state = .Opened

namespace Flood

variable {start : Int × Int} {rest : List (Int × Int)}

theorem initial (h : b.Blank p) : Flood b p (b.openCell p) [p] where
  keeps := Keeps.openCell b p
  start_opened := (openCell_state b p p).mpr (Or.inl rfl)
  sound q hq hNot := by
    rw [openCell_state] at hq
    rw [hq.resolve_right hNot]
    exact ⟨h.valid, ReflTransGen.refl⟩
  queue q hq := by
    rw [List.mem_singleton.mp hq]
    exact ⟨h, ReflTransGen.refl⟩
  closed q hq hOpened := by
    rw [openCell_state] at hOpened
    exact Or.inl (List.mem_singleton.mpr (hOpened.resolve_right hq.state_ne))

/-- One round of the loop. -/
theorem step (h : Flood b start b' (p :: rest)) {s : Board × List (Int × Int)}
    (hAround : Around p dir (b', rest) s) : Flood b start s.1 s.2 := by
  obtain ⟨hBlank, hChain⟩ := h.queue p List.mem_cons_self
  have hNew (q : Int × Int) (hq : (s.1.board q).state = .Opened)
      (hNot : (b.board q).state ≠ .Opened) : b.valid q ∧ b.Chain start q := by
    rcases (hAround.opened_iff q).mp hq with hOld | ⟨hValid, hMine, hDir⟩
    · exact h.sound q hOld hNot
    · exact ⟨h.keeps.valid_iff.mp hValid, hChain.tail ⟨hBlank, kingMove_iff.mpr hDir⟩⟩
  refine ⟨h.keeps.trans hAround.keeps, hAround.keeps.opened _ h.start_opened, hNew,
    fun q hq => ?_, fun q hq hOpened => ?_⟩
  · rcases (hAround.queue_iff q).mp hq with hOld | ⟨hOpened, hNot, hZero⟩
    · exact h.queue q (List.mem_cons_of_mem p hOld)
    · have hState := mt (h.keeps.opened q) hNot
      obtain ⟨hValid, hReach⟩ := hNew q hOpened hState
      exact ⟨⟨hValid, hState, (h.keeps.mine_eq q).symm.trans hZero⟩, hReach⟩
  · by_cases hOld : (b'.board q).state = .Opened
    · rcases h.closed q hq hOld with hMem | hAll
      · rcases List.mem_cons.mp hMem with rfl | hRest
        · refine Or.inr fun r hMove hr hMine => (hAround.opened_iff r).mpr (Or.inr ?_)
          rw [h.keeps.mine_eq]
          exact ⟨h.keeps.valid_iff.mpr hr, hMine, kingMove_iff.mp hMove⟩
        · exact Or.inl ((hAround.queue_iff q).mpr (Or.inl hRest))
      · exact Or.inr fun r hMove hr hMine => hAround.keeps.opened r (hAll r hMove hr hMine)
    · refine Or.inl ((hAround.queue_iff q).mpr (Or.inr ⟨hOpened, hOld, ?_⟩))
      rw [h.keeps.mine_eq, hq.mine_eq]

/-- The loop ends: a cell that is put into the queue is one that is opened. -/
theorem blankLoop {fuel : Nat} (h : Flood b start b' rest)
    (hFuel : rest.length + b.rows * b.cols < fuel + b'.openedCells.card) :
    ∃ last, Board.blankLoop fuel b' rest = some last ∧ Flood b start last [] := by
  induction fuel generalizing b' rest with
  | zero =>
      have hLe : b'.openedCells.card ≤ b'.cells.card := Finset.card_filter_le _ _
      rw [card_cells, h.keeps.rows_eq, h.keeps.cols_eq] at hLe
      omega
  | succ fuel ih =>
      cases rest with
      | nil => exact ⟨b', rfl, h⟩
      | cons p rest =>
          have hAround := Around.foldl p dir (b', rest)
          rw [Board.blankLoop]
          generalize dir.foldl (Board.visit p) (b', rest) = s at hAround
          have hLength := hAround.length_le
          dsimp only at hLength
          rw [List.length_cons] at hFuel
          exact ih (h.step hAround) (by omega)

/-- At the end every chain has been followed. -/
theorem opened_of_chain (h : Flood b start b' []) (hNumbered : b.Numbered)
    (hChain : b.Chain start q) (hq : b.valid q) :
    (b'.board q).state = .Opened := by
  induction hChain with
  | refl => exact h.start_opened
  | tail hChain hMove ih =>
      obtain ⟨hBlank, hKing⟩ := hMove
      have hAll := (h.closed _ hBlank (ih hBlank.valid)).resolve_left List.not_mem_nil
      exact hAll _ hKing hq (hNumbered.mine_nonneg hBlank hKing hq)

end Flood

/-- Playing a blank cell opens the cells that chains of blank cells lead to. -/
theorem play_cascade (b : Board) (hNumbered : b.Numbered) (p : Int × Int) (hBlank : b.Blank p) :
    ∃ b', b.play p = some (true, b') ∧
      ∀ q, (b'.board q).state = .Opened ∧ (b.board q).state ≠ .Opened ↔
        b.valid q ∧ (b.board q).state ≠ .Opened ∧ b.Chain p q := by
  obtain ⟨b', hRun, hFlood⟩ : ∃ b', (b.openCell p).openBlankCells p = some b' ∧
      Flood b p b' [] := by
    have hNew : p ∉ b.openedCells := fun hMem => hBlank.state_ne (mem_openedCells.mp hMem).2
    refine (Flood.initial hBlank).blankLoop ?_
    rw [openedCells_openCell hBlank.valid, Finset.card_insert_of_notMem hNew]
    change 1 + b.rows * b.cols < b.rows * b.cols + 2 + _
    omega
  refine ⟨b', ?_, fun q => ⟨?_, ?_⟩⟩
  · have hAllowed : ¬(¬b.valid p ∨ (b.board p).state = .Opened) :=
      not_or.mpr ⟨not_not.mpr hBlank.valid, hBlank.state_ne⟩
    have hMine : ¬(b.board p).mine < 0 := by rw [hBlank.mine_eq]; decide
    rw [play, if_neg hAllowed, if_neg hMine, if_pos hBlank.mine_eq, hRun]
    rfl
  · rintro ⟨hOpened, hNot⟩
    obtain ⟨hValid, hChain⟩ := hFlood.sound q hOpened hNot
    exact ⟨hValid, hNot, hChain⟩
  · rintro ⟨hValid, hNot, hChain⟩
    exact ⟨hFlood.opened_of_chain hNumbered hChain hValid, hNot⟩

theorem row_numbered : row.Numbered := by
  have hAll : ∀ p ∈ row.cells, 0 ≤ (row.board p).mine →
      (row.board p).mine = row.minesAround p := by decide
  exact fun p hp => hAll p (mem_cells.mpr hp)

/-- The numbered border is opened, the mine beyond it is not. -/
theorem play_cascade_row :
    ∃ b', row.play (0, 3) = some (true, b') ∧ (b'.board (0, 1)).state = .Opened := by
  have hBlank (c : Int) (hc : c = 2 ∨ c = 3) : row.Blank (0, c) := by
    rcases hc with rfl | rfl
    · exact ⟨by decide, by decide, rfl⟩
    · exact ⟨by decide, by decide, rfl⟩
  obtain ⟨b', hRun, hAll⟩ := play_cascade row row_numbered (0, 3) (hBlank 3 (Or.inr rfl))
  refine ⟨b', hRun, ((hAll (0, 1)).mpr ⟨by decide, by decide, ?_⟩).1⟩
  exact (ReflTransGen.single ⟨hBlank 3 (Or.inr rfl), by decide⟩).tail
    ⟨hBlank 2 (Or.inl rfl), by decide⟩

end Board
end CppPerf.Games
