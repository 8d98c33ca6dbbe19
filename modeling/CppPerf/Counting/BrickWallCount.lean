import CppPerf.Counting.BrickWall
import Mathlib.Data.List.Chain

/-! The number of brick walls that `brickbybrick.cpp` computes. -/
namespace CppPerf.Counting

open Ordered Enumeration

variable {N len x : Nat} {ok : Nat → Prop} {p q : Pattern} {row row' : List Nat}

/-- A row of bricks of the lengths 2 and 3. -/
structure IsRow (width : Nat) (row : List Nat) : Prop where
  bricks : ∀ b ∈ row, b = 2 ∨ b = 3
  sum_eq : row.sum = width

/-- Two bricks of the row meet there. -/
def Boundary (row : List Nat) (x : Nat) : Prop :=
  ∃ a b, row = a ++ b ∧ a ≠ [] ∧ b ≠ [] ∧ a.sum = x

structure IsWall (width height : Nat) (rows : List (List Nat)) : Prop where
  length_eq : rows.length = height
  is_row : ∀ row ∈ rows, IsRow width row
  no_crack : rows.IsChain fun row row' => ∀ x, ¬(Boundary row x ∧ Boundary row' x)

/-- The ends of the bricks of a row that starts at a position. -/
def ends (len : Nat) : List Nat → Pattern
  | [] => []
  | b :: row => (len + b) :: ends (len + b) row

theorem ends_injective (len : Nat) : Function.Injective (ends len) := by
  intro row row' h
  induction row generalizing len row' with
  | nil =>
      cases row' with
      | nil => rfl
      | cons b' row' => cases h
  | cons b row ih =>
      cases row' with
      | nil => cases h
      | cons b' row' =>
          rw [ends, ends, List.cons.injEq, Nat.add_left_cancel_iff] at h
          obtain ⟨rfl, hRest⟩ := h
          rw [ih (len + b) hRest]

theorem mem_ends : x ∈ ends len row ↔ ∃ a b, row = a ++ b ∧ a ≠ [] ∧ len + a.sum = x := by
  induction row generalizing len with
  | nil =>
      refine iff_of_false List.not_mem_nil ?_
      rintro ⟨a, b, hEq, hNe, -⟩
      exact hNe (List.append_eq_nil_iff.mp hEq.symm).1
  | cons c row ih =>
      rw [ends, List.mem_cons, ih]
      constructor
      · rintro (rfl | ⟨a, b, rfl, hNe, rfl⟩)
        · exact ⟨[c], row, rfl, by simp, by simp⟩
        · exact ⟨c :: a, b, rfl, by simp, by simp [Nat.add_assoc]⟩
      · rintro ⟨a, b, hEq, hNe, rfl⟩
        cases a with
        | nil => exact absurd rfl hNe
        | cons d a =>
            rw [List.cons_append, List.cons.injEq] at hEq
            obtain ⟨rfl, rfl⟩ := hEq
            cases a with
            | nil => exact Or.inl (by simp)
            | cons e a => exact Or.inr ⟨e :: a, b, rfl, by simp, by simp [Nat.add_assoc]⟩

/-- The last end is no boundary. -/
theorem boundary_iff (h : IsRow N row) : Boundary row x ↔ x ∈ ends 0 row ∧ x ≠ N := by
  rw [mem_ends]
  constructor
  · rintro ⟨a, b, rfl, ha, hb, rfl⟩
    refine ⟨⟨a, b, rfl, ha, by simp⟩, ?_⟩
    obtain ⟨c, b, rfl⟩ := List.exists_cons_of_ne_nil hb
    have hSum := h.sum_eq
    have hBrick := h.bricks c (by simp)
    rw [List.sum_append, List.sum_cons] at hSum
    omega
  · rintro ⟨⟨a, b, rfl, ha, rfl⟩, hNe⟩
    refine ⟨a, b, rfl, ha, ?_, by simp⟩
    rintro rfl
    have hSum := h.sum_eq
    rw [List.append_nil] at hSum
    omega

/-- The patterns are the ends of the rows. -/
theorem tail_iff_ends : Tail N (fun _ => True) len q ↔
    ∃ row, (∀ b ∈ row, b = 2 ∨ b = 3) ∧ len + row.sum = N ∧ ends len row = q := by
  constructor
  · intro h
    induction h with
    | done => exact ⟨[], by simp, by simp, rfl⟩
    | @brick len size q hSize _ _ ih =>
        obtain ⟨row, hBricks, hSum, rfl⟩ := ih
        refine ⟨(size - len) :: row, List.forall_mem_cons.mpr ⟨by omega, hBricks⟩, ?_, ?_⟩
        · rw [List.sum_cons]
          omega
        · rw [ends, Nat.add_sub_cancel' (by omega)]
  · rintro ⟨row, hBricks, hSum, rfl⟩
    induction row generalizing len with
    | nil =>
        obtain rfl : len = N := by simpa using hSum
        exact .done
    | cons b row ih =>
        rw [List.forall_mem_cons] at hBricks
        rw [List.sum_cons] at hSum
        exact .brick (by omega) trivial (ih hBricks.2 (by omega))

theorem tail_iff_row : Tail N (fun _ => True) 0 q ↔ ∃ row, IsRow N row ∧ ends 0 row = q := by
  rw [tail_iff_ends]
  constructor
  · rintro ⟨row, hBricks, hSum, hEq⟩
    exact ⟨row, ⟨hBricks, by omega⟩, hEq⟩
  · rintro ⟨row, hRow, hEq⟩
    exact ⟨row, hRow.bricks, by rw [hRow.sum_eq, Nat.zero_add], hEq⟩

theorem tail_iff_ok : Tail N ok len q ↔ Tail N (fun _ => True) len q ∧ ∀ x ∈ q, ok x := by
  constructor
  · intro h
    induction h with
    | done => exact ⟨.done, by simp⟩
    | brick hSize hOk _ ih =>
        exact ⟨.brick hSize trivial ih.1, List.forall_mem_cons.mpr ⟨hOk, ih.2⟩⟩
  · rintro ⟨h, hOk⟩
    induction h with
    | done => exact .done
    | brick hSize _ _ ih =>
        rw [List.forall_mem_cons] at hOk
        exact .brick hSize hOk.1 (ih hOk.2)

/-- The ends increase up to the width. -/
theorem Tail.sorted (h : Tail N ok len q) : (len :: q).Pairwise (· < ·) ∧ q.getLastD len = N := by
  induction h with
  | done => exact ⟨List.pairwise_singleton _ _, rfl⟩
  | @brick len size q hSize _ _ ih =>
      obtain ⟨hSorted, hLast⟩ := ih
      refine ⟨List.pairwise_cons.mpr ⟨fun x hx => ?_, hSorted⟩, ?_⟩
      · rcases List.mem_cons.mp hx with rfl | hx
        · omega
        · have hLt := (List.pairwise_cons.mp hSorted).1 x hx
          omega
      · rw [List.getLastD_cons, hLast]

/-- One entry after the other is filled. -/
theorem allNeighbors_spec {patterns : List Pattern} (hNodup : patterns.Nodup)
    (hSorted : ∀ p ∈ patterns, p.Pairwise (· < ·)) :
    ∃ nc, allNeighbors patterns [] = ([], nc) ∧
      (∀ p ∈ patterns, Enumerates (neighbors nc p) (Tail (back p) (NoCrack (back p) p) 0)) ∧
      ∀ p ∉ patterns, neighbors nc p = [] := by
  induction patterns using List.reverseRecOn with
  | nil => exact ⟨OrderedMap.empty, rfl, by simp, fun _ _ => rfl⟩
  | append_singleton patterns prev ih =>
      rw [List.nodup_append] at hNodup
      obtain ⟨hFirst, -, hApart⟩ := hNodup
      have hNew : prev ∉ patterns := fun hMem => hApart prev hMem prev (by simp) rfl
      obtain ⟨nc, hCall, hOld, hNone⟩ :=
        ih hFirst fun p hp => hSorted p (List.mem_append_left _ hp)
      obtain ⟨new, nc', hStep, hExtends, hEnum⟩ :=
        neighbor_pattern_spec (hSorted prev (by simp)) 0 [] nc
      refine ⟨nc', ?_, ?_, ?_⟩
      · rw [allNeighbors, List.foldl_append, ← allNeighbors, hCall]
        exact hStep
      · intro p hp
        rw [hExtends p]
        split_ifs with hSame
        · rw [hSame, hNone prev hNew]
          simpa using hEnum
        · rcases List.mem_append.mp hp with hp | hp
          · exact hOld p hp
          · exact absurd (List.mem_singleton.mp hp) hSame
      · intro p hp
        rw [List.mem_append, not_or, List.mem_singleton] at hp
        rw [hExtends p, if_neg hp.2, hNone p hp.1]

variable {width height : Nat}

/-- The neighbours of a row's pattern are the patterns without a common boundary. -/
theorem noCrack_iff (h : IsRow width row) (h' : IsRow width row') :
    (∀ x ∈ ends 0 row', NoCrack width (ends 0 row) x) ↔
      ∀ x, ¬(Boundary row x ∧ Boundary row' x) := by
  simp only [boundary_iff h, boundary_iff h', NoCrack]
  constructor
  · rintro hNone x ⟨⟨hMem, hNe⟩, hMem', -⟩
    rcases hNone x hMem' with hEq | hNot
    · exact hNe hEq
    · exact hNot hMem
  · intro hNone x hMem'
    by_cases hEq : x = width
    · exact Or.inl hEq
    · exact Or.inr fun hMem => hNone x ⟨⟨hMem, hEq⟩, hMem', hEq⟩

/-- Walls and their patterns correspond. -/
theorem image_walls : List.map (ends 0) '' {rows | IsWall width height rows} =
    {patterns | patterns.length = height ∧ (∀ p ∈ patterns, Tail width (fun _ => True) 0 p) ∧
      patterns.IsChain fun p q => ∀ x ∈ q, NoCrack width p x} := by
  have hChain : ∀ {rows : List (List Nat)}, (∀ row ∈ rows, IsRow width row) →
      ((rows.IsChain fun row row' => ∀ x, ¬(Boundary row x ∧ Boundary row' x)) ↔
        (rows.map (ends 0)).IsChain fun p q => ∀ x ∈ q, NoCrack width p x) := by
    intro rows hRows
    rw [List.isChain_map]
    exact List.IsChain.iff_of_mem_imp fun row row' hMem hMem' =>
      (noCrack_iff (hRows row hMem) (hRows row' hMem')).symm
  ext patterns
  constructor
  · rintro ⟨rows, h, rfl⟩
    refine ⟨by rw [List.length_map, h.length_eq], fun p hp => ?_, (hChain h.is_row).mp h.no_crack⟩
    obtain ⟨row, hMem, rfl⟩ := List.mem_map.mp hp
    exact tail_iff_row.mpr ⟨row, h.is_row row hMem, rfl⟩
  · rintro ⟨hLength, hTails, hNone⟩
    have hRows : ∃ rows : List (List Nat),
        (∀ row ∈ rows, IsRow width row) ∧ rows.map (ends 0) = patterns := by
      clear hLength hNone
      induction patterns with
      | nil => exact ⟨[], by simp, rfl⟩
      | cons p patterns ih =>
          rw [List.forall_mem_cons] at hTails
          obtain ⟨row, hRow, rfl⟩ := tail_iff_row.mp hTails.1
          obtain ⟨rows, hRows, rfl⟩ := ih hTails.2
          exact ⟨row :: rows, List.forall_mem_cons.mpr ⟨hRow, hRows⟩, rfl⟩
    obtain ⟨rows, hRows, rfl⟩ := hRows
    rw [List.length_map] at hLength
    exact ⟨rows, ⟨hLength, hRows, (hChain hRows).mpr hNone⟩, rfl⟩

/-- The result is the number of walls. -/
theorem W_eq_walls (width height : Nat) (hHeight : 1 ≤ height) :
    ∃ ways, W width height = some ways ∧
      {rows | IsWall width height rows}.encard = ways := by
  obtain ⟨patterns, hTile, hPatterns⟩ := valid_tile_spec width 0 [] []
  simp only [List.nil_append, List.map_id'] at hTile
  have hWidth : ∀ {p}, Tail width (fun _ => True) 0 p → p.Pairwise (· < ·) ∧ back p = width :=
    fun h => ⟨(List.pairwise_cons.mp h.sorted.1).2, h.sorted.2⟩
  obtain ⟨nc, hCall, hNeighbors, -⟩ := allNeighbors_spec hPatterns.nodup
    fun p hp => (hWidth ((hPatterns.mem_iff p).mp hp)).1
  have hNext : ∀ p, Tail width (fun _ => True) 0 p → Enumerates (neighbors nc p) fun q =>
      Tail width (fun _ => True) 0 q ∧ ∀ x ∈ q, NoCrack width p x := by
    intro p hp
    have hEnum := hNeighbors p ((hPatterns.mem_iff p).mpr hp)
    rw [(hWidth hp).2] at hEnum
    exact hEnum.congr fun q => tail_iff_ok
  refine ⟨_, W_eq_count hHeight hTile hCall, ?_⟩
  rw [← (List.map_injective_iff.mpr (ends_injective 0)).encard_image, image_walls,
    ← length_all_chains, ← (enumerates_all_chains hPatterns hNext (height - 1)).encard_eq,
    Nat.sub_add_cancel hHeight]

theorem W_eq_walls_nine : {rows | IsWall 9 3 rows}.encard = 8 := by
  have hRun : W 9 3 = some 8 := by decide +kernel
  obtain ⟨ways, hWays, hCount⟩ := W_eq_walls 9 3 (by decide)
  rw [hRun, Option.some.injEq] at hWays
  rw [hCount, ← hWays]
  rfl

end CppPerf.Counting
