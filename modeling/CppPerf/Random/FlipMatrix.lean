import CppPerf.Arrays.PartialSum
import CppPerf.Semantics.OrderedMap
import CppPerf.Semantics.SwapRemove

/-! `FlipMatrix` of `Random.cpp`. The random engine is an argument of `flip`, which fails on a
number outside of the range of the distribution. -/
namespace CppPerf.Random

open Text Ordered SwapRemove

def map_get_or_default {Key Value : Type} [LinearOrder Key] (m : OrderedMap Key Value) (k : Key)
    (deft : Value) : Value :=
  (m.lookup k).getD deft

structure FlipMatrix where
  rows : Int
  cols : Int
  total : Int
  matrix : OrderedMap Int Int

namespace FlipMatrix

def construct (n_rows n_cols : Int) : FlipMatrix :=
  ⟨n_rows, n_cols, int (n_rows * n_cols), OrderedMap.empty⟩

/-- A cell is given by its row and its column. -/
def cell (m : FlipMatrix) (r : Int) : Int × Int := (r.tdiv m.cols, r.tmod m.cols)

def flip (m : FlipMatrix) (r : Int) : Option ((Int × Int) × FlipMatrix) :=
  let total := m.total - 1
  if 0 ≤ r ∧ r ≤ total then
    if r = total then
      let r := map_get_or_default m.matrix r r
      some (m.cell r, { m with total })
    else
      let x := map_get_or_default m.matrix r r
      let matrix := m.matrix.set r (map_get_or_default m.matrix total total)
      some (m.cell x, { m with total, matrix })
  else none

def reset (m : FlipMatrix) : FlipMatrix :=
  { m with total := int (m.rows * m.cols), matrix := OrderedMap.empty }

/-- Calls of `flip`, and what they return. -/
def flips : FlipMatrix → (rs : List Int) → Option (List (Int × Int) × FlipMatrix)
  | m, [] => some ([], m)
  | m, r :: rs => do
      let (first, m) ← m.flip r
      let (rest, m) ← flips m rs
      return (first :: rest, m)

inductive Call where
  | flip (r : Int)
  | reset

def call (m : FlipMatrix) : Call → Option FlipMatrix
  | .flip r => (m.flip r).map Prod.snd
  | .reset => some m.reset

variable {m m' : FlipMatrix} {r : Int} {rs : List Int}

/-- What the virtual array has at a position. -/
def at_position (m : FlipMatrix) (i : Nat) : Int := map_get_or_default m.matrix (i : Int) i

/-- The part of the virtual array in front of `total`. -/
def positions (m : FlipMatrix) : List Int := (List.range m.total.toNat).map m.at_position

theorem getElem?_positions {i : Nat} (hi : i < m.total) :
    m.positions[i]? = some (m.at_position i) := by
  rw [positions, List.getElem?_map, List.getElem?_range (by omega), Option.map_some]

theorem at_position_set {matrix : OrderedMap Int Int} {r i : Nat} {x : Int}
    (h : m'.matrix = matrix.set r x) (hSame : m.matrix = matrix) :
    m'.at_position i = if i = r then x else m.at_position i := by
  rw [at_position, at_position, map_get_or_default, map_get_or_default, h, hSame]
  split_ifs with hKey
  · subst hKey
    rw [OrderedMap.lookup_set_self, Option.getD_some]
  · rw [OrderedMap.lookup_set_of_ne _ _ (by omega)]

/-- The last entry takes the place of the one that is drawn. -/
theorem flip_eq_some {r : Nat} (hr : r < m.total) :
    ∃ m', m.flip r = some (m.cell (m.at_position r), m') ∧
      m'.positions = swapRemove m.positions r ∧ m'.total = m.total - 1 ∧
      m'.rows = m.rows ∧ m'.cols = m.cols := by
  obtain ⟨t, ht⟩ := Int.eq_ofNat_of_zero_le (show 0 ≤ m.total - 1 by omega)
  have hSize : m.total.toNat = t + 1 := by omega
  have hOld : m.positions = (List.range t).map m.at_position ++ [m.at_position t] := by
    rw [positions, hSize, List.range_succ, List.map_append, List.map_singleton]
  rw [hOld, swapRemove_concat]
  by_cases hLast : r = t
  · subst hLast
    refine ⟨{ m with total := r }, ?_, ?_, ht.symm, rfl, rfl⟩
    · rw [flip, ht]
      simp only [Int.natCast_nonneg, le_refl, and_self, if_true]
      rfl
    · rw [List.set_eq_of_length_le (by simp)]
      rfl
  · refine ⟨{ m with total := t, matrix := m.matrix.set r (m.at_position t) }, ?_, ?_, ht.symm, rfl,
      rfl⟩
    · rw [flip, ht]
      exact (if_pos ⟨by omega, by omega⟩).trans (if_neg (by omega))
    · apply List.ext_getElem?
      intro i
      by_cases hi : i < t
      · rw [getElem?_positions (by show (i : Int) < t; omega), List.getElem?_set, List.length_map,
          List.length_range, List.getElem?_map, List.getElem?_range hi,
          at_position_set (m := m) rfl rfl]
        split_ifs <;> grind
      · rw [List.getElem?_eq_none (by simp [positions]; omega),
          List.getElem?_eq_none (by simp; omega)]

/-- Flips draw from the virtual array. -/
theorem flips_eq_some (hLow : ∀ i (hi : i < rs.length), 0 ≤ rs[i] ∧ rs[i] < m.total - i) :
    ∃ drawn m', flips m rs = some (drawn.map m.cell, m') ∧
      draws (rs.map Int.toNat) m.positions = some (drawn, m'.positions) := by
  induction rs generalizing m with
  | nil => exact ⟨[], m, rfl, rfl⟩
  | cons r rs ih =>
      have hFirst := hLow 0 (Nat.zero_lt_succ _)
      rw [List.getElem_cons_zero] at hFirst
      obtain ⟨r, rfl⟩ := Int.eq_ofNat_of_zero_le hFirst.1
      obtain ⟨m₁, hFlip, hPositions, hTotal, -, hCols⟩ :=
        flip_eq_some (m := m) (r := r) (by omega)
      have hRest : ∀ i (hi : i < rs.length), 0 ≤ rs[i] ∧ rs[i] < m₁.total - i := fun i hi => by
        have hNext := hLow (i + 1) (Nat.succ_lt_succ hi)
        rw [List.getElem_cons_succ] at hNext
        omega
      obtain ⟨drawn, m₂, hFlips, hDraws⟩ := ih hRest
      have hCell : m₁.cell = m.cell := by
        funext x
        rw [cell, cell, hCols]
      refine ⟨m.at_position r :: drawn, m₂, ?_, ?_⟩
      · simp only [flips, hFlip, Option.bind_eq_bind, Option.bind_some, hFlips, hCell]
        rfl
      · rw [hPositions] at hDraws
        exact draws_cons_eq_some_iff.mpr ⟨_, drawn, getElem?_positions (by omega), hDraws, rfl⟩

/-- The size of the matrix never changes. -/
theorem call_size {c : Call} (h : m.call c = some m') : m'.rows = m.rows ∧ m'.cols = m.cols := by
  cases c with
  | reset =>
      obtain rfl : m.reset = m' := Option.some.inj h
      exact ⟨rfl, rfl⟩
  | flip r =>
      rw [call, flip, Option.map_eq_some_iff] at h
      obtain ⟨⟨_, m₁⟩, hFlip, rfl⟩ := h
      simp only at hFlip
      split_ifs at hFlip
      · obtain rfl := (Prod.mk.inj (Option.some.inj hFlip)).2
        exact ⟨rfl, rfl⟩
      · obtain rfl := (Prod.mk.inj (Option.some.inj hFlip)).2
        exact ⟨rfl, rfl⟩

theorem calls_size {calls : List Call} (h : calls.foldlM call m = some m') :
    m'.rows = m.rows ∧ m'.cols = m.cols := by
  induction calls generalizing m with
  | nil =>
      obtain rfl : m = m' := Option.some.inj h
      exact ⟨rfl, rfl⟩
  | cons c calls ih =>
      rw [List.foldlM_cons, Option.bind_eq_bind, Option.bind_eq_some_iff] at h
      obtain ⟨m₁, hCall, hRest⟩ := h
      have hSize := call_size hCall
      rw [← hSize.1, ← hSize.2]
      exact ih hRest

variable {n_rows n_cols : Int}

theorem positions_construct (hLow : 0 ≤ n_rows * n_cols) (hInt : n_rows * n_cols < 2 ^ 31) :
    (construct n_rows n_cols).total = n_rows * n_cols ∧
      (construct n_rows n_cols).positions =
        (List.range (n_rows * n_cols).toNat).map fun i : Nat => (i : Int) := by
  have hTotal : (construct n_rows n_cols).total = n_rows * n_cols :=
    Arrays.int_eq_self (by omega) hInt
  refine ⟨hTotal, ?_⟩
  rw [positions, hTotal]
  rfl

/-- The cells of a matrix, row by row. -/
theorem cell_construct {i : Int} (hi : 0 ≤ i) :
    (construct n_rows n_cols).cell i = (i / n_cols, i % n_cols) := by
  rw [cell, construct, Int.tdiv_eq_ediv_of_nonneg hi, Int.tmod_eq_emod_of_nonneg hi]

theorem nodup_cells (hInt : n_rows * n_cols < 2 ^ 31) (hLow : 0 ≤ n_rows * n_cols) :
    ((construct n_rows n_cols).positions.map (construct n_rows n_cols).cell).Nodup := by
  rw [(positions_construct hLow hInt).2, List.map_map]
  refine List.Nodup.map_on (fun i _ j _ hSame => ?_) List.nodup_range
  simp only [Function.comp_apply, cell_construct (Int.natCast_nonneg _), Prod.mk.injEq] at hSame
  have hi := Int.mul_ediv_add_emod i n_cols
  have hj := Int.mul_ediv_add_emod j n_cols
  rw [hSame.1, hSame.2, hj] at hi
  omega

theorem mem_cells_iff (hRows : 1 ≤ n_rows) (hCols : 1 ≤ n_cols) (hInt : n_rows * n_cols < 2 ^ 31)
    (c : Int × Int) :
    c ∈ (construct n_rows n_cols).positions.map (construct n_rows n_cols).cell ↔
      (0 ≤ c.1 ∧ c.1 < n_rows) ∧ 0 ≤ c.2 ∧ c.2 < n_cols := by
  have hLow : 0 ≤ n_rows * n_cols := Int.mul_nonneg (by omega) (by omega)
  rw [(positions_construct hLow hInt).2, List.map_map, List.mem_map]
  simp only [Function.comp_apply, cell_construct (Int.natCast_nonneg _), List.mem_range]
  constructor
  · rintro ⟨i, hi, rfl⟩
    refine ⟨⟨Int.ediv_nonneg (Int.natCast_nonneg i) (by omega), ?_⟩,
      Int.emod_nonneg _ (by omega), Int.emod_lt_of_pos _ (by omega)⟩
    exact Int.ediv_lt_of_lt_mul (by omega) (by omega)
  · rintro ⟨⟨hRowLow, hRowHigh⟩, hColLow, hColHigh⟩
    have hRow : c.1 * n_cols ≤ (n_rows - 1) * n_cols :=
      Int.mul_le_mul_of_nonneg_right (by omega) (by omega)
    have hProduct : 0 ≤ c.1 * n_cols := Int.mul_nonneg hRowLow (by omega)
    rw [Int.sub_mul, Int.one_mul] at hRow
    refine ⟨(c.1 * n_cols + c.2).toNat, by omega, ?_⟩
    rw [Int.toNat_of_nonneg (by omega), Int.add_comm,
      Int.add_mul_ediv_right _ _ (by omega), Int.add_mul_emod_self_right,
      Int.ediv_eq_zero_of_lt hColLow hColHigh, Int.emod_eq_of_lt hColLow hColHigh, Int.zero_add]

/-- From construction or the last reset on, the first calls give every cell exactly once. -/
theorem flips_cover (rows cols : Int) (hRows : 1 ≤ rows) (hCols : 1 ≤ cols)
    (hInt : rows * cols < 2 ^ 31) (m : FlipMatrix)
    (hFresh : m = construct rows cols ∨
      ∃ (calls : List Call) (past : FlipMatrix),
        calls.foldlM call (construct rows cols) = some past ∧ m = past.reset)
    (rs : List Int) (hLength : rs.length = rows * cols)
    (hDraws : ∀ i (hi : i < rs.length), 0 ≤ rs[i] ∧ rs[i] < rows * cols - i) :
    ∃ cells m', flips m rs = some (cells, m') ∧ cells.Nodup ∧
      ∀ c, c ∈ cells ↔ (0 ≤ c.1 ∧ c.1 < rows) ∧ 0 ≤ c.2 ∧ c.2 < cols := by
  have hLow : 0 ≤ rows * cols := Int.mul_nonneg (by omega) (by omega)
  obtain ⟨hTotal, hPositions⟩ := positions_construct hLow hInt
  have hSame : m = construct rows cols := by
    rcases hFresh with hNew | ⟨calls, past, hRun, rfl⟩
    · exact hNew
    · obtain ⟨hPastRows, hPastCols⟩ := calls_size hRun
      rw [FlipMatrix.reset, hPastRows, hPastCols]
      rfl
  subst hSame
  rw [← hTotal] at hDraws
  obtain ⟨drawn, m', hFlips, hRun⟩ := flips_eq_some hDraws
  have hAll : drawn.Perm (construct rows cols).positions := by
    apply draws_perm_of_length hRun
    rw [hPositions, List.length_map, List.length_map, List.length_range]
    omega
  have hCells := hAll.map (construct rows cols).cell
  refine ⟨_, m', hFlips, hCells.nodup_iff.mpr (nodup_cells hInt hLow), fun c => ?_⟩
  rw [hCells.mem_iff]
  exact mem_cells_iff hRows hCols hInt c

theorem flips_cover_two : ∃ cells m', flips (construct 2 2) [1, 2, 0, 0] = some (cells, m') ∧
    cells.Nodup ∧ ∀ c, c ∈ cells ↔ (0 ≤ c.1 ∧ c.1 < 2) ∧ 0 ≤ c.2 ∧ c.2 < 2 :=
  flips_cover 2 2 (by decide) (by decide) (by decide) (construct 2 2) (Or.inl rfl) [1, 2, 0, 0]
    (by decide) (by decide)

end FlipMatrix

end CppPerf.Random
