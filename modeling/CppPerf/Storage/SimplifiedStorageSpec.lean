import CppPerf.Storage.SimplifiedStorage
import Mathlib.Data.List.Nodup

/-! What the operations of the storage do to a free list of numbered chunks. -/
namespace CppPerf.Storage.Arena

open Heap LinkedList SimplifiedStorage

variable {a : Arena} {mem : Flat} {free front back suffix : List Nat}

/-- The chunks with these numbers are reached from a pointer, in this order. -/
def Reaches (a : Arena) (mem : Flat) (p : UInt64) (free : List Nat) : Prop :=
  IsList (nextOf mem) 0 p (free.map a.chunkAt)

/-- The loop puts the chunks in front of the list it is given, and writes to
no other cell. -/
theorem segregateLoop_spec {j k : Nat} (hk : j + k ≤ a.count)
    (hSuffix : ∀ x ∈ suffix, x < a.count ∧ (x < j ∨ j + k ≤ x)) {iter_back end_ : UInt64}
    (hBack : 0 < k → iter_back = a.chunkAt (j + (k - 1))) (hEnd : a.Reaches mem end_ suffix) :
    a.Reaches (a.storage.segregateLoop mem iter_back end_ k).1
        (a.storage.segregateLoop mem iter_back end_ k).2 (List.range' j k ++ suffix) ∧
      ∀ p, a.IsCell p → p ∉ (List.range' j k).map a.chunkAt →
        nextOf (a.storage.segregateLoop mem iter_back end_ k).1 p = nextOf mem p := by
  induction k generalizing mem suffix iter_back end_ with
  | zero => exact ⟨hEnd, fun _ _ _ => rfl⟩
  | succ k ih =>
      obtain rfl : iter_back = a.chunkAt (j + k) := hBack (Nat.succ_pos k)
      have hCell : a.IsCell (a.chunkAt (j + k)) := isCell_chunkAt (by omega)
      have hKept : a.Reaches (mem.storePtr (a.chunkAt (j + k)) end_) end_ suffix := by
        apply hEnd.congr
        intro p hp
        obtain ⟨x, hx, rfl⟩ := List.mem_map.mp hp
        obtain ⟨hLt, hOut⟩ := hSuffix x hx
        apply nextOf_storePtr_of_ne mem end_ hCell (isCell_chunkAt hLt)
        intro hEq
        have hIndex := a.chunkAt_inj (Nat.le_of_lt hLt) (by omega) hEq
        omega
      have hLonger : a.Reaches (mem.storePtr (a.chunkAt (j + k)) end_) (a.chunkAt (j + k))
          ((j + k) :: suffix) := by
        refine ⟨rfl, a.chunkAt_ne_zero (by omega) (by omega), ?_⟩
        rw [nextOf_storePtr_self]
        exact hKept
      have hOutside : ∀ x ∈ (j + k) :: suffix, x < a.count ∧ (x < j ∨ j + k ≤ x) := by
        intro x hx
        rcases List.mem_cons.mp hx with rfl | hx
        · exact ⟨by omega, Or.inr (Nat.le_refl _)⟩
        · have hOld := hSuffix x hx
          exact ⟨hOld.1, by omega⟩
      have hNext : 0 < k → a.chunkAt (j + k) - a.storage.m_partition_size =
          a.chunkAt (j + (k - 1)) := by
        intro hPos
        have hSucc := a.chunkAt_succ (j + (k - 1))
        rw [show j + (k - 1) + 1 = j + k by omega] at hSucc
        rw [← hSucc, UInt64.add_sub_cancel]
      obtain ⟨hList, hFrame⟩ := ih (by omega) hOutside hNext hLonger
      have hRange : List.range' j k ++ (j + k) :: suffix = List.range' j (k + 1) ++ suffix := by
        rw [List.range'_1_concat, List.append_assoc]
        rfl
      rw [hRange] at hList
      refine ⟨hList, fun p hp hOut => ?_⟩
      rw [List.range'_1_concat, List.map_append, List.mem_append, not_or] at hOut
      rw [segregateLoop, hFrame p hp hOut.1]
      exact nextOf_storePtr_of_ne mem end_ hCell hp fun hEq => hOut.2 (by simp [hEq])

/-- `segregate` for a block of `k` whole chunks. -/
theorem segregate_spec {j k : Nat} (hk : j + k ≤ a.count)
    (hSuffix : ∀ x ∈ suffix, x < a.count ∧ (x < j ∨ j + k ≤ x)) {size end_ : UInt64}
    (hSize : (size / a.storage.m_partition_size).toNat = k) (hEnd : a.Reaches mem end_ suffix) :
    a.Reaches (a.storage.segregate mem (a.chunkAt j) size end_).1
        (a.storage.segregate mem (a.chunkAt j) size end_).2 (List.range' j k ++ suffix) ∧
      ∀ p, a.IsCell p → p ∉ (List.range' j k).map a.chunkAt →
        nextOf (a.storage.segregate mem (a.chunkAt j) size end_).1 p = nextOf mem p := by
  have hCount := a.count_lt
  have hBlocks : size / a.storage.m_partition_size = UInt64.ofNat k := by
    rw [← hSize, UInt64.ofNat_toNat]
  have hRounds : (size / a.storage.m_partition_size).toInt64.toNatClampNeg = k := by
    rw [hBlocks]
    exact Int64.toNatClampNeg_ofNat_of_lt (show k < 2 ^ 63 by omega)
  unfold segregate
  simp only [hRounds]
  apply segregateLoop_spec hk hSuffix ?_ hEnd
  intro hPos
  have hIndex : size / a.storage.m_partition_size - 1 = UInt64.ofNat (k - 1) := by
    rw [hBlocks, UInt64.ofNat_sub hPos]
    rfl
  rw [hIndex, a.chunkAt_add]

/-- The interval of `n` chunks from `j` on is not free as a whole. -/
def NoRunAt (free : List Nat) (n j : Nat) : Prop := ∃ i < n, j + i ∉ free

/-- The loop follows the chunks in a row behind `i`, for `left` rounds or up to
a gap. -/
theorem tryAllocLoop_spec {i : Nat} {rest : List Nat} (hi : i < a.count)
    (hRest : ∀ x ∈ rest, x < a.count)
    (hList : a.Reaches mem (nextOf mem (a.chunkAt i)) rest) (start : UInt64) (left : Nat) :
    ∃ k back, rest = List.range' (i + 1) k ++ back ∧
      ((k = left ∧
          a.storage.tryAllocLoop mem start (a.chunkAt i) left = (start, a.chunkAt (i + k))) ∨
        (k < left ∧ back.head? ≠ some (i + k + 1) ∧
          a.storage.tryAllocLoop mem start (a.chunkAt i) left = (a.chunkAt (i + k), 0))) := by
  induction left generalizing i rest with
  | zero => exact ⟨0, rest, rfl, Or.inl ⟨rfl, rfl⟩⟩
  | succ left ih =>
      have hPos : 0 < a.count := by omega
      cases rest with
      | nil =>
          have hNull : nextOf mem (a.chunkAt i) = 0 := hList
          refine ⟨0, [], rfl, Or.inr ⟨Nat.succ_pos left, by simp, ?_⟩⟩
          rw [tryAllocLoop, if_pos]
          · rfl
          · rw [hNull, a.chunkAt_succ]
            exact (a.chunkAt_ne_zero hi hPos).symm
      | cons x rest =>
          obtain ⟨hNext, _, hTail⟩ := hList
          have hx := hRest x List.mem_cons_self
          by_cases hRow : x = i + 1
          · subst hRow
            obtain ⟨k, back, hSplit, hLoop⟩ := ih hx
              (fun y hy => hRest y (List.mem_cons_of_mem _ hy)) hTail
            refine ⟨k + 1, back, ?_, ?_⟩
            · rw [List.range'_succ, List.cons_append, ← hSplit]
            · rw [tryAllocLoop, if_neg, hNext, show i + (k + 1) = i + 1 + k by omega]
              · rcases hLoop with ⟨rfl, hLoop⟩ | ⟨hLt, hGap, hLoop⟩
                · exact Or.inl ⟨rfl, hLoop⟩
                · exact Or.inr ⟨by omega, hGap, hLoop⟩
              · rw [hNext, a.chunkAt_succ]
                exact fun hNe => hNe rfl
          · refine ⟨0, x :: rest, rfl, Or.inr ⟨Nat.succ_pos left, ?_, ?_⟩⟩
            · rw [List.head?_cons]
              exact fun hEq => hRow (Option.some.inj hEq)
            · rw [tryAllocLoop, if_pos]
              · rfl
              · rw [hNext, a.chunkAt_succ]
                exact fun hEq => hRow (a.chunkAt_inj (Nat.le_of_lt hx) hi hEq)

/-- Chunks in a row that are too few, with a gap behind them, do not help to
find `n` in a row. -/
theorem noRunAt_of_skipped {i k n j : Nat} {back : List Nat}
    (hSorted : (List.range' i (k + 1) ++ back).Pairwise (· < ·)) (hFew : k + 1 < n)
    (hGap : back.head? ≠ some (i + k + 1)) (hBack : NoRunAt back n j) :
    NoRunAt (List.range' i (k + 1) ++ back) n j := by
  rw [List.pairwise_append] at hSorted
  obtain ⟨_, hSortedBack, hAcross⟩ := hSorted
  have hPast : ∀ x ∈ back, i + k < x := fun x hx =>
    hAcross (i + k) (List.mem_range'_1.mpr ⟨by omega, by omega⟩) x hx
  rcases Nat.lt_or_ge j i with hBelow | hFrom
  · refine ⟨0, by omega, fun hMem => ?_⟩
    rcases List.mem_append.mp hMem with hRow | hRest
    · have hRange := List.mem_range'_1.mp hRow
      omega
    · have hGt := hPast _ hRest
      omega
  · rcases Nat.lt_or_ge (i + k) j with hBehind | hInside
    · obtain ⟨i', hi', hNot⟩ := hBack
      refine ⟨i', hi', fun hMem => ?_⟩
      rcases List.mem_append.mp hMem with hRow | hRest
      · have hRange := List.mem_range'_1.mp hRow
        omega
      · exact hNot hRest
    · refine ⟨i + k + 1 - j, by omega, fun hMem => ?_⟩
      rw [show j + (i + k + 1 - j) = i + k + 1 by omega] at hMem
      rcases List.mem_append.mp hMem with hRow | hRest
      · have hRange := List.mem_range'_1.mp hRow
        omega
      · cases back with
        | nil => cases hRest
        | cons x back =>
            have hHead := hPast x List.mem_cons_self
            rcases List.mem_cons.mp hRest with rfl | hLater
            · exact hGap rfl
            · have hLt := List.rel_of_pairwise_cons hSortedBack hLater
              omega

theorem lastCell_range' (start : UInt64) (i k : Nat) :
    lastCell start ((List.range' i (k + 1)).map a.chunkAt) = a.chunkAt (i + k) := by
  rw [List.range'_1_concat, List.map_append]
  exact lastCell_concat _ _ _

/-- One attempt from a cell before a nonempty list: the chunks in a row that it
starts with are enough, or they are too few and the next attempt is from the
last one of them. -/
theorem tryAllocN_spec {n_blocks : UInt64} (hBlocks : 0 < n_blocks.toNat) {start : UInt64}
    (hStart : start ≠ 0) {i : Nat} {tail : List Nat} (hRest : ∀ x ∈ i :: tail, x < a.count)
    (hList : a.Reaches mem (nextOf mem start) (i :: tail)) :
    ∃ k back, i :: tail = List.range' i (k + 1) ++ back ∧ a.chunkAt (i + k) ≠ 0 ∧
      a.Reaches mem (nextOf mem (a.chunkAt (i + k))) back ∧
      ((k + 1 = n_blocks.toNat ∧
          a.storage.tryAllocN mem start n_blocks = (start, a.chunkAt (i + k))) ∨
        (k + 1 < n_blocks.toNat ∧ back.head? ≠ some (i + k + 1) ∧
          a.storage.tryAllocN mem start n_blocks = (a.chunkAt (i + k), 0))) := by
  obtain ⟨hFirst, hFirstNe, hTail⟩ := hList
  have hLeft : (n_blocks - 1).toNat = n_blocks.toNat - 1 :=
    UInt64.toNat_sub_of_le _ _ (UInt64.le_iff_toNat_le.mpr hBlocks)
  have hTry : a.storage.tryAllocN mem start n_blocks =
      a.storage.tryAllocLoop mem start (a.chunkAt i) (n_blocks.toNat - 1) := by
    rw [tryAllocN, if_neg hStart, hFirst, hLeft]
  obtain ⟨k, back, hSplit, hLoop⟩ := tryAllocLoop_spec (hRest i List.mem_cons_self)
    (fun x hx => hRest x (List.mem_cons_of_mem _ hx)) hTail start (n_blocks.toNat - 1)
  have hRow : i :: tail = List.range' i (k + 1) ++ back := by
    rw [List.range'_succ, List.cons_append, ← hSplit]
  have hLast : i + k < a.count := by
    apply hRest
    rw [hRow]
    exact List.mem_append_left _ (List.mem_range'_1.mpr ⟨by omega, by omega⟩)
  refine ⟨k, back, hRow, a.chunkAt_ne_zero (Nat.le_of_lt hLast) (by omega), ?_, ?_⟩
  · rw [← lastCell_range' start i k]
    apply IsList.behind
    rw [← List.map_append, ← hRow]
    exact ⟨hFirst, hFirstNe, hTail⟩
  · rw [hTry]
    rcases hLoop with ⟨hk, hLoop⟩ | ⟨hLt, hGap, hLoop⟩
    · exact Or.inl ⟨by omega, hLoop⟩
    · exact Or.inr ⟨by omega, hGap, hLoop⟩

/-- The loop finds the first chunks in a row that are enough, if there are any. -/
theorem allocLoop_spec {n_blocks : UInt64} (hBlocks : 0 < n_blocks.toNat) {rest : List Nat}
    (hRest : ∀ x ∈ rest, x < a.count) (hSorted : rest.Pairwise (· < ·)) {start : UInt64}
    (hStart : start ≠ 0) (hList : a.Reaches mem (nextOf mem start) rest) {fuel : Nat}
    (hFuel : rest.length < fuel) :
    (a.storage.allocLoop mem n_blocks fuel start = some none ∧
        ∀ j, NoRunAt rest n_blocks.toNat j) ∨
      ∃ front j back, rest = front ++ (List.range' j n_blocks.toNat ++ back) ∧
        a.storage.allocLoop mem n_blocks fuel start =
          some (some (lastCell start (front.map a.chunkAt),
            a.chunkAt (j + (n_blocks.toNat - 1)))) ∧
        ∀ i < j, NoRunAt rest n_blocks.toNat i := by
  induction fuel generalizing rest start with
  | zero => exact absurd hFuel (Nat.not_lt_zero _)
  | succ fuel ih =>
      cases rest with
      | nil =>
          have hNull : nextOf mem start = 0 := hList
          refine Or.inl ⟨?_, fun j => ⟨0, hBlocks, List.not_mem_nil⟩⟩
          rw [allocLoop, if_pos hNull]
      | cons i tail =>
          obtain ⟨k, back, hRow, hLast, hBehind, hTry⟩ :=
            tryAllocN_spec hBlocks hStart hRest hList
          have hNext : nextOf mem start ≠ 0 := by
            rw [hList.head]
            exact hList.2.1
          rw [allocLoop, if_neg hNext]
          rcases hTry with ⟨hEnough, hTry⟩ | ⟨hFew, hGap, hTry⟩
          · refine Or.inr ⟨[], i, back, ?_, ?_, ?_⟩
            · rw [hRow, hEnough]
              rfl
            · simp only [hTry, if_neg hLast, ← hEnough]
              rfl
            · intro j hj
              refine ⟨0, hBlocks, fun hMem => ?_⟩
              rcases List.mem_cons.mp hMem with hEq | hLater
              · omega
              · have hLt := List.rel_of_pairwise_cons hSorted hLater
                omega
          · rw [hRow] at hSorted
            have hBack : ∀ x ∈ back, x < a.count := by
              intro x hx
              apply hRest
              rw [hRow]
              exact List.mem_append_right _ hx
            have hShort : back.length < fuel := by
              have hLength := congrArg List.length hRow
              rw [List.length_append, List.length_range'] at hLength
              omega
            have hSkip : ∀ j, NoRunAt back n_blocks.toNat j →
                NoRunAt (i :: tail) n_blocks.toNat j := by
              intro j hj
              rw [hRow]
              exact noRunAt_of_skipped hSorted hFew hGap hj
            simp only [hTry, ↓reduceIte]
            rcases ih hBack (List.pairwise_append.mp hSorted).2.1 hLast hBehind hShort with
              ⟨hNone, hNoRun⟩ | ⟨front, j, back', hFound, hSome, hNoRun⟩
            · exact Or.inl ⟨hNone, fun j => hSkip j (hNoRun j)⟩
            · refine Or.inr ⟨List.range' i (k + 1) ++ front, j, back', ?_, ?_, ?_⟩
              · rw [hRow, hFound, List.append_assoc]
              · rw [hSome, List.map_append, lastCell_append, lastCell_range']
              · exact fun i' hi' => hSkip i' (hNoRun i' hi')

/-- The search stops before the first chunk that is not below `j`. -/
theorem findPrev_spec {j : Nat} (hj : j ≤ a.count) {rest : List Nat}
    (hRest : ∀ x ∈ rest, x < a.count) (hSorted : rest.Pairwise (· < ·)) {start : UInt64}
    (hList : a.Reaches mem (nextOf mem start) rest) {fuel : Nat} (hFuel : rest.length < fuel) :
    ∃ front back, rest = front ++ back ∧
      findPrev mem (a.chunkAt j) fuel start = some (lastCell start (front.map a.chunkAt)) ∧
      (∀ x ∈ front, x < j) ∧ ∀ x ∈ back, j ≤ x := by
  induction fuel generalizing rest start with
  | zero => exact absurd hFuel (Nat.not_lt_zero _)
  | succ fuel ih =>
      cases rest with
      | nil =>
          have hNull : nextOf mem start = 0 := hList
          refine ⟨[], [], rfl, ?_, fun _ hx => absurd hx List.not_mem_nil,
            fun _ hx => absurd hx List.not_mem_nil⟩
          rw [findPrev, if_neg (fun h => h.1 hNull)]
          rfl
      | cons i tail =>
          obtain ⟨hFirst, hFirstNe, hTail⟩ := hList
          have hi := Nat.le_of_lt (hRest i List.mem_cons_self)
          by_cases hBefore : i < j
          · obtain ⟨front, back, hSplit, hFind, hFront, hBack⟩ :=
              ih (fun x hx => hRest x (List.mem_cons_of_mem _ hx)) hSorted.of_cons hTail
                (Nat.lt_of_succ_lt_succ hFuel)
            refine ⟨i :: front, back, by rw [hSplit, List.cons_append], ?_, ?_, hBack⟩
            · rw [findPrev, hFirst, if_pos ⟨hFirstNe, (a.chunkAt_lt_iff hi hj).mpr hBefore⟩, hFind]
              rfl
            · intro x hx
              rcases List.mem_cons.mp hx with rfl | hx
              · exact hBefore
              · exact hFront x hx
          · refine ⟨[], i :: tail, rfl, ?_, fun _ hx => absurd hx List.not_mem_nil, ?_⟩
            · rw [findPrev, hFirst, if_neg (fun h => hBefore ((a.chunkAt_lt_iff hi hj).mp h.2))]
              rfl
            · intro x hx
              rcases List.mem_cons.mp hx with rfl | hx
              · omega
              · have hLt := List.rel_of_pairwise_cons hSorted hx
                omega

/-- A new list behind the front part of the free list. -/
theorem Reaches.relink {value : UInt64} {tail : List Nat}
    (h : a.Reaches mem (a.storage.m_head mem) (front ++ back))
    (hSorted : front.Pairwise (· < ·)) (hFront : ∀ x ∈ front, x < a.count)
    (hTail : a.Reaches mem value tail) (hOut : ∀ x ∈ tail, x < a.count ∧ x ∉ front) :
    a.Reaches (mem.storePtr (lastCell a.storage.self (front.map a.chunkAt)) value)
      (a.storage.m_head (mem.storePtr (lastCell a.storage.self (front.map a.chunkAt)) value))
      (front ++ tail) := by
  have hCells : ∀ p ∈ a.storage.self :: front.map a.chunkAt, a.IsCell p := by
    intro p hp
    rcases List.mem_cons.mp hp with rfl | hp
    · exact isCell_self
    · obtain ⟨x, hx, rfl⟩ := List.mem_map.mp hp
      exact isCell_chunkAt (hFront x hx)
  have hLast := lastCell_mem a.storage.self (front.map a.chunkAt)
  have hNodup : (a.storage.self :: front.map a.chunkAt).Nodup := by
    refine List.nodup_cons.mpr ⟨fun hSelf => ?_, ?_⟩
    · obtain ⟨x, hx, hEq⟩ := List.mem_map.mp hSelf
      exact self_ne_chunkAt (hFront x hx) hEq.symm
    · refine List.Nodup.map_on ?_ (hSorted.imp Nat.ne_of_lt)
      exact fun x hx y hy hEq =>
        a.chunkAt_inj (Nat.le_of_lt (hFront x hx)) (Nat.le_of_lt (hFront y hy)) hEq
  unfold Reaches SimplifiedStorage.m_head at *
  rw [List.map_append] at h ⊢
  refine h.splice hNodup ?_ ?_
  · exact fun p hp hNe => nextOf_storePtr_of_ne mem value (hCells _ hLast) (hCells p hp) hNe
  · rw [nextOf_storePtr_self]
    apply hTail.congr
    intro p hp
    obtain ⟨x, hx, rfl⟩ := List.mem_map.mp hp
    obtain ⟨hLt, hNot⟩ := hOut x hx
    apply nextOf_storePtr_of_ne mem value (hCells _ hLast) (isCell_chunkAt hLt)
    intro hEq
    rw [← hEq] at hLast
    rcases List.mem_cons.mp hLast with hSelf | hMem
    · exact self_ne_chunkAt hLt hSelf.symm
    · obtain ⟨y, hy, hEq'⟩ := List.mem_map.mp hMem
      have hIndex := a.chunkAt_inj (Nat.le_of_lt (hFront y hy)) (Nat.le_of_lt hLt) hEq'
      exact hNot (hIndex ▸ hy)

/-- An allocation takes the first chunks in a row that are enough off the free
list, or leaves everything as it is. -/
theorem allocN_spec {n_blocks : UInt64} (hBlocks : 0 < n_blocks.toNat)
    (hFree : ∀ x ∈ free, x < a.count) (hSorted : free.Pairwise (· < ·))
    (hList : a.Reaches mem (a.storage.m_head mem) free) {fuel : Nat} (hFuel : free.length < fuel) :
    (a.storage.allocN mem n_blocks fuel = some (mem, 0) ∧ ∀ j, NoRunAt free n_blocks.toNat j) ∨
      ∃ front j back mem', free = front ++ (List.range' j n_blocks.toNat ++ back) ∧
        a.storage.allocN mem n_blocks fuel = some (mem', a.chunkAt j) ∧
        a.Reaches mem' (a.storage.m_head mem') (front ++ back) ∧
        ∀ i < j, NoRunAt free n_blocks.toNat i := by
  rcases allocLoop_spec hBlocks hFree hSorted a.self_ne hList hFuel with
    ⟨hNone, hNoRun⟩ | ⟨front, j, back, hSplit, hLoop, hNoRun⟩
  · refine Or.inl ⟨?_, hNoRun⟩
    rw [allocN, hNone]
    rfl
  · obtain ⟨k, hk⟩ : ∃ k, n_blocks.toNat = k + 1 := ⟨n_blocks.toNat - 1, by omega⟩
    rw [hk] at hSplit hLoop
    rw [hSplit] at hList
    have hRun : a.Reaches mem (nextOf mem (lastCell a.storage.self (front.map a.chunkAt)))
        (List.range' j (k + 1) ++ back) := by
      apply IsList.behind
      rw [← List.map_append]
      exact hList
    have hBehind : a.Reaches mem (nextOf mem (a.chunkAt (j + k))) back := by
      rw [← lastCell_range' (lastCell a.storage.self (front.map a.chunkAt)) j k]
      apply IsList.behind
      rw [← List.map_append]
      exact hRun
    have hHead : nextOf mem (lastCell a.storage.self (front.map a.chunkAt)) = a.chunkAt j := by
      rw [List.range'_succ] at hRun
      exact hRun.head
    rw [hSplit, List.pairwise_append] at hSorted
    rw [hSplit] at hFree
    refine Or.inr ⟨front, j, back, _, by rw [hk, hSplit], ?_,
      hList.relink hSorted.1 (fun x hx => hFree x (List.mem_append_left _ hx)) hBehind ?_, hNoRun⟩
    · rw [allocN, hLoop]
      simp only [Option.map_some, hHead, Nat.add_sub_cancel]
    · intro x hx
      have hIn : x ∈ List.range' j (k + 1) ++ back := List.mem_append_right _ hx
      refine ⟨hFree x (List.mem_append_right _ hIn), fun hOld => ?_⟩
      exact Nat.lt_irrefl x (hSorted.2.2 x hOld x hIn)

theorem toNat_mul_partition_div {n : UInt64} (h : n.toNat ≤ a.count) :
    (n * a.storage.m_partition_size / a.storage.m_partition_size).toNat = n.toNat := by
  have hMul := a.mul_partition_le h
  have hEnd := a.block_end
  have hGe := a.partition_ge
  rw [UInt64.toNat_div, UInt64.toNat_mul, Nat.mod_eq_of_lt (by omega),
    Nat.mul_div_cancel _ (by omega)]

/-- The cells of a list of chunks outside of the block are not among its cells. -/
theorem not_mem_range_map {j k : Nat} (hj : j + k ≤ a.count)
    (hOut : ∀ x ∈ free, x < a.count ∧ (x < j ∨ j + k ≤ x)) {p : UInt64}
    (hp : p ∈ a.storage.self :: free.map a.chunkAt) :
    a.IsCell p ∧ p ∉ (List.range' j k).map a.chunkAt := by
  rcases List.mem_cons.mp hp with rfl | hp
  · refine ⟨isCell_self, fun hMem => ?_⟩
    obtain ⟨y, hy, hEq⟩ := List.mem_map.mp hMem
    have hRange := List.mem_range'_1.mp hy
    exact self_ne_chunkAt (show y < a.count by omega) hEq.symm
  · obtain ⟨x, hx, rfl⟩ := List.mem_map.mp hp
    obtain ⟨hLt, hSide⟩ := hOut x hx
    refine ⟨isCell_chunkAt hLt, fun hMem => ?_⟩
    obtain ⟨y, hy, hEq⟩ := List.mem_map.mp hMem
    have hRange := List.mem_range'_1.mp hy
    have hIndex := a.chunkAt_inj (show y ≤ a.count by omega) (Nat.le_of_lt hLt) hEq
    omega

/-- Freed chunks go back to their place in the free list. -/
theorem freeN_spec {j : Nat} {n : UInt64} (hn : n ≠ 0) (hj : j + n.toNat ≤ a.count)
    (hFree : ∀ x ∈ free, x < a.count ∧ (x < j ∨ j + n.toNat ≤ x))
    (hSorted : free.Pairwise (· < ·)) (hList : a.Reaches mem (a.storage.m_head mem) free)
    {fuel : Nat} (hFuel : free.length < fuel) :
    ∃ front back mem', free = front ++ back ∧ (∀ x ∈ front, x < j) ∧ (∀ x ∈ back, j ≤ x) ∧
      a.storage.freeN mem (a.chunkAt j) n fuel = some mem' ∧
      a.Reaches mem' (a.storage.m_head mem') (front ++ (List.range' j n.toNat ++ back)) := by
  obtain ⟨front, back, rfl, hFind, hFront, hBack⟩ :=
    findPrev_spec (show j ≤ a.count by omega) (fun x hx => (hFree x hx).1) hSorted hList hFuel
  have hBehind :
      a.Reaches mem (nextOf mem (lastCell a.storage.self (front.map a.chunkAt))) back := by
    apply IsList.behind
    rw [← List.map_append]
    exact hList
  obtain ⟨hRun, hFrame⟩ := segregate_spec hj
    (fun x hx => hFree x (List.mem_append_right _ hx))
    (toNat_mul_partition_div (show n.toNat ≤ a.count by omega)) hBehind
  obtain ⟨result, hResult⟩ : ∃ result, result = a.storage.segregate mem (a.chunkAt j)
      (n * a.storage.m_partition_size)
      (nextOf mem (lastCell a.storage.self (front.map a.chunkAt))) := ⟨_, rfl⟩
  rw [← hResult] at hRun hFrame
  have hOutside : ∀ p ∈ a.storage.self :: (front ++ back).map a.chunkAt,
      nextOf result.1 p = nextOf mem p := by
    intro p hp
    obtain ⟨hCell, hOut⟩ := not_mem_range_map hj hFree hp
    exact hFrame p hCell hOut
  have hKept : a.Reaches result.1 (a.storage.m_head result.1) (front ++ back) := by
    have hSelf := hOutside _ List.mem_cons_self
    unfold SimplifiedStorage.m_head at *
    rw [hSelf]
    exact hList.congr fun p hp => hOutside p (List.mem_cons_of_mem _ hp)
  refine ⟨front, back, _, rfl, hFront, hBack, ?_, hKept.relink (List.pairwise_append.mp hSorted).1
    (fun x hx => (hFree x (List.mem_append_left _ hx)).1) hRun ?_⟩
  · rw [freeN, if_neg hn, hFind, hResult]
    rfl
  · intro x hx
    rcases List.mem_append.mp hx with hRange | hRest
    · have hIn := List.mem_range'_1.mp hRange
      refine ⟨by omega, fun hOld => ?_⟩
      have hLt := hFront x hOld
      omega
    · refine ⟨(hFree x (List.mem_append_right _ hRest)).1, fun hOld => ?_⟩
      exact Nat.lt_irrefl x ((List.pairwise_append.mp hSorted).2.2 x hOld x hRest)

/-- The constructor makes a list of all the chunks. -/
theorem construct_spec (mem : Flat) :
    a.Reaches (a.storage.construct mem a.block a.size)
      (a.storage.m_head (a.storage.construct mem a.block a.size)) (List.range a.count) := by
  obtain ⟨start, hStart⟩ : ∃ start, start = mem.storePtr a.storage.self 0 := ⟨_, rfl⟩
  have hEmpty : a.Reaches start (a.storage.m_head start) [] := by
    rw [hStart]
    exact nextOf_storePtr_self _ _ _
  have hSize : (a.size / a.storage.m_partition_size).toNat = a.count := rfl
  have hWhole : 0 + a.count ≤ a.count := by omega
  obtain ⟨hRun, _⟩ :=
    segregate_spec hWhole (fun _ hx => absurd hx List.not_mem_nil) hSize hEmpty
  rw [List.append_nil, ← List.range_eq_range', chunkAt_zero] at hRun
  obtain ⟨result, hResult⟩ : ∃ result,
      result = a.storage.segregate start a.block a.size (a.storage.m_head start) := ⟨_, rfl⟩
  have hConstruct : a.storage.construct mem a.block a.size =
      result.1.storePtr a.storage.self result.2 := by
    rw [construct, ← hStart, hResult]
  rw [← hResult] at hRun
  rw [hConstruct]
  unfold SimplifiedStorage.m_head
  rw [nextOf_storePtr_self]
  apply hRun.congr
  intro p hp
  obtain ⟨x, hx, rfl⟩ := List.mem_map.mp hp
  have hLt := List.mem_range.mp hx
  exact nextOf_storePtr_of_ne _ _ isCell_self (isCell_chunkAt hLt) (self_ne_chunkAt hLt).symm

/-- The loop of `num_chunks` adds the length of the list. -/
theorem numChunksLoop_spec {iter : UInt64} (hList : a.Reaches mem iter free) {fuel : Nat}
    (hFuel : free.length < fuel) (count : UInt64) :
    numChunksLoop mem fuel iter count = some (count + UInt64.ofNat free.length) := by
  induction fuel generalizing free iter count with
  | zero => exact absurd hFuel (Nat.not_lt_zero _)
  | succ fuel ih =>
      cases free with
      | nil =>
          have hNull : iter = 0 := hList
          rw [numChunksLoop, if_pos hNull]
          simp
      | cons x rest =>
          obtain ⟨hIter, hNe, hRest⟩ := hList
          rw [numChunksLoop, if_neg (fun hZero => hNe (hIter.symm.trans hZero)), hIter,
            ih hRest (Nat.lt_of_succ_lt_succ hFuel), List.length_cons, UInt64.ofNat_add,
            UInt64.add_assoc, UInt64.add_comm 1]
          rfl

theorem numChunks_spec (hList : a.Reaches mem (a.storage.m_head mem) free) {fuel : Nat}
    (hFuel : free.length < fuel) :
    a.storage.numChunks mem fuel = some (UInt64.ofNat free.length) := by
  rw [numChunks, numChunksLoop_spec hList hFuel, UInt64.zero_add]

theorem empty_iff (hList : a.Reaches mem (a.storage.m_head mem) free) :
    a.storage.empty mem = true ↔ free = [] := by
  rw [SimplifiedStorage.empty, beq_iff_eq]
  cases free with
  | nil => exact iff_of_true hList rfl
  | cons x rest =>
      refine iff_of_false (fun hZero => ?_) (List.cons_ne_nil x rest)
      exact hList.2.1 (hList.1.symm.trans hZero)

end CppPerf.Storage.Arena
