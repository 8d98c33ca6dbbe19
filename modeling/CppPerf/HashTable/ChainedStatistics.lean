import CppPerf.HashTable.ChainedLoops
import Mathlib.Algebra.BigOperators.Group.Finset.Basic
import Mathlib.Algebra.Ring.Nat

/-! The statistics that `clear` traces. A depth of 20 or more is recorded as the
greatest one, but not counted. -/
namespace CppPerf.HashTable.HashTableBase

open Indexed Transition

variable {α : Type*}

/-- `clear` reads `iCounts` in its bounds, and a total that it computes is the
sum of the depths recorded. -/
structure StatisticsInRange (t : HashTableBase α) (depths : List Nat) : Prop where
  in_range : t.clear.isSome
  total_eq : ∀ iTotal, t.traceHashCollision = some (some iTotal) → iTotal.toNat = depths.sum

/-- Each length of a chain has been recorded on the way there. -/
structure Recorded (t : HashTableBase α) (depths : List Nat) : Prop where
  size_ne : t.iSize ≠ 0
  none_eq : t.pElements = none → depths = []
  chain : ∀ elements, t.pElements = some elements →
    ∀ i d, 1 ≤ d → d ≤ (elements.get i).length → d ∈ depths
  counts_size : t.iCounts.size = 20
  closed : ∀ d ∈ depths, 1 ≤ d ∧ ∀ k, 1 ≤ k → k ≤ d → k ∈ depths
  le_maxDepth : ∀ d ∈ depths, d < 2 ^ 32 → d ≤ t.iMaxDepth.toNat
  maxDepth_lt : (∀ d ∈ depths, d < 20) → t.iMaxDepth.toNat < 20
  counts_eq : (∀ d ∈ depths, d < 20) →
    ∀ i < 20, t.iCounts.get i = UInt32.ofNat (depths.count i)

theorem totalLoop_outside (iCounts : Vec UInt32) (l : List Nat) (iTotal : UInt32) {i : Nat}
    (hi : i ∈ l) (hSize : iCounts.size ≤ i) : totalLoop iCounts l iTotal = none := by
  induction l generalizing iTotal with
  | nil => cases hi
  | cons j rest ih =>
      rw [totalLoop]
      split_ifs with hj
      · apply ih
        rcases List.mem_cons.mp hi with rfl | hRest
        · omega
        · exact hRest
      · rfl

theorem totalLoop_count (iCounts : Vec UInt32) (depths l : List Nat) (n : Nat)
    (h : ∀ i ∈ l, i < iCounts.size ∧ iCounts.get i = UInt32.ofNat (depths.count i)) :
    totalLoop iCounts l (UInt32.ofNat n) =
      some (UInt32.ofNat (n + (l.map fun i => i * depths.count i).sum)) := by
  induction l generalizing n with
  | nil => simp [totalLoop]
  | cons i rest ih =>
      obtain ⟨hLt, hCount⟩ := h i (by simp)
      rw [totalLoop, if_pos hLt, hCount, ← UInt32.ofNat_mul, ← UInt32.ofNat_add,
        ih _ fun j hj => h j (by simp [hj]), List.map_cons, List.sum_cons, Nat.add_assoc]

/-- Counting the depths one by one adds them up. -/
theorem sum_mul_count (depths : List Nat) (n : Nat) (h : ∀ d ∈ depths, 1 ≤ d ∧ d ≤ n) :
    ((List.range' 1 n).map fun i => i * depths.count i).sum = depths.sum := by
  have hSub : depths.toFinset ⊆ (List.range' 1 n).toFinset := by
    intro d hd
    have hBounds := h d (by simpa using hd)
    simp only [List.mem_toFinset, List.mem_range'_1]
    omega
  rw [Finset.sum_list_count_of_subset depths _ hSub, List.sum_toFinset _ List.nodup_range']
  simp only [Nat.nsmul_eq_mul, Nat.mul_comm]

private theorem not_lt_one {iEntries : UInt32} (h : iEntries ≠ 0) : ¬iEntries < 1 := by
  rw [UInt32.lt_iff_toNat_lt]
  intro hLt
  apply h
  apply UInt32.toNat_inj.mp
  simpa using hLt

namespace Recorded

variable {t : HashTableBase α} {depths : List Nat}

/-- While no depth is beyond the counts, the total is exact up to wrapping. -/
theorem trace_of_short (hr : t.Recorded depths) (hShort : ∀ d ∈ depths, d < 20)
    (hEntries : t.iEntries ≠ 0) :
    t.traceHashCollision = some (some (UInt32.ofNat depths.sum)) := by
  have hMax := hr.maxDepth_lt hShort
  have hRange : ∀ i ∈ List.range' 1 t.iMaxDepth.toNat,
      i < t.iCounts.size ∧ t.iCounts.get i = UInt32.ofNat (depths.count i) := by
    intro i hi
    rw [List.mem_range'_1] at hi
    rw [hr.counts_size]
    exact ⟨by omega, hr.counts_eq hShort i (by omega)⟩
  have hDepths : ∀ d ∈ depths, 1 ≤ d ∧ d ≤ t.iMaxDepth.toNat := by
    intro d hd
    have hLt := hShort d hd
    exact ⟨(hr.closed d hd).1, hr.le_maxDepth d hd (by omega)⟩
  have hLoop := totalLoop_count t.iCounts depths _ 0 hRange
  rw [sum_mul_count depths _ hDepths, Nat.zero_add] at hLoop
  rw [traceHashCollision, if_neg (not_lt_one hEntries)]
  exact congrArg (Option.map some) hLoop

/-- A depth beyond the counts makes the loop run past their end. -/
theorem trace_of_deep (hr : t.Recorded depths) {d : Nat} (hd : d ∈ depths) (hDeep : 20 ≤ d)
    (hEntries : t.iEntries ≠ 0) : t.traceHashCollision = none := by
  have hMax := hr.le_maxDepth 20 ((hr.closed d hd).2 20 (by omega) hDeep) (by omega)
  have hMem : 20 ∈ List.range' 1 t.iMaxDepth.toNat := by
    rw [List.mem_range'_1]
    omega
  rw [traceHashCollision, if_neg (not_lt_one hEntries),
    totalLoop_outside t.iCounts _ 0 hMem (by rw [hr.counts_size]), Option.map_none]

theorem clear_isSome (hTrace : t.traceHashCollision.isSome) : t.clear.isSome := by
  cases hElements : t.pElements with
  | none => simp [clear, hElements]
  | some elements => simpa [clear, hElements] using hTrace

/-- The statistics are in range exactly as long as all depths are counted and
their sum fits into 32 bits, and in a table without entries. -/
theorem inRange_iff (hr : t.Recorded depths) :
    t.StatisticsInRange depths ↔
      t.iEntries = 0 ∨ (∀ d ∈ depths, d < 20) ∧ depths.sum < 2 ^ 32 := by
  constructor
  · intro h
    by_cases hEntries : t.iEntries = 0
    · exact Or.inl hEntries
    · right
      have hShort : ∀ d ∈ depths, d < 20 := by
        intro d hd
        by_contra hDeep
        have hTrace := hr.trace_of_deep hd (by omega) hEntries
        have hRange := h.in_range
        cases hElements : t.pElements with
        | none =>
            rw [hr.none_eq hElements] at hd
            cases hd
        | some elements => simp [clear, hElements, hTrace] at hRange
      have hTotal := h.total_eq _ (hr.trace_of_short hShort hEntries)
      have hBound := (UInt32.ofNat depths.sum).toNat_lt
      exact ⟨hShort, by omega⟩
  · intro h
    by_cases hEntries : t.iEntries = 0
    · have hTrace : t.traceHashCollision = some none := by
        simp [traceHashCollision, hEntries]
      exact ⟨clear_isSome (by rw [hTrace]; rfl), by simp [hTrace]⟩
    · obtain ⟨hShort, hSum⟩ := h.resolve_left hEntries
      have hTrace := hr.trace_of_short hShort hEntries
      refine ⟨clear_isSome (by rw [hTrace]; rfl), ?_⟩
      intro iTotal hTotal
      rw [hTrace, Option.some.injEq, Option.some.injEq] at hTotal
      rw [← hTotal, UInt32.toNat_ofNat', Nat.mod_eq_of_lt hSum]

/-- The invariant is kept when no depth is recorded and no chain gets longer. -/
theorem of_same {t' : HashTableBase α} (hr : t.Recorded depths)
    {elements : Vec (List (HashElement α))} (hElements : t.pElements = some elements) {i : Nat}
    {chain : List (HashElement α)} (hTable : t'.pElements = some (elements.set i chain))
    (hSize : t'.iSize = t.iSize) (hLength : chain.length = (elements.get i).length)
    (hMax : t'.iMaxDepth = t.iMaxDepth) (hCounts : t'.iCounts = t.iCounts) :
    t'.Recorded depths := by
  refine ⟨by rw [hSize]; exact hr.size_ne, by simp [hTable], ?_, by rw [hCounts, hr.counts_size],
    hr.closed, by rw [hMax]; exact hr.le_maxDepth, by rw [hMax]; exact hr.maxDepth_lt,
    by rw [hCounts]; exact hr.counts_eq⟩
  intro elements' hElements' j d hPos hd
  obtain rfl : elements.set i chain = elements' := Option.some.inj (hTable.symm.trans hElements')
  rw [Vec.get_set] at hd
  apply hr.chain elements hElements j d hPos
  split_ifs at hd with hji
  · rwa [hji, ← hLength]
  · exact hd

theorem maxDepth_of_appended {t' : HashTableBase α} {elements : Vec (List (HashElement α))}
    {i : Nat} {x : α} {chain : List (HashElement α)} (h : Appended t t' elements i x chain) :
    t'.iMaxDepth.toNat =
      max t.iMaxDepth.toNat (((elements.get i).length + 1) % 2 ^ 32) := by
  rw [h.maxDepth_eq, ← UInt32.toNat_ofNat']
  split_ifs with hLt
  · rw [UInt32.lt_iff_toNat_lt] at hLt
    omega
  · rw [UInt32.lt_iff_toNat_lt] at hLt
    omega

/-- Below the end of the counts, the recorded depth is counted once more. -/
theorem counts_of_appended {t' : HashTableBase α} {elements : Vec (List (HashElement α))}
    {i : Nat} {x : α} {chain : List (HashElement α)} (hr : t.Recorded depths)
    (h : Appended t t' elements i x chain)
    (hShort : ∀ d ∈ ((elements.get i).length + 1) :: depths, d < 20) {k : Nat} (hk : k < 20) :
    t'.iCounts.get k =
      UInt32.ofNat ((((elements.get i).length + 1) :: depths).count k) := by
  obtain ⟨hNew, hRest⟩ := List.forall_mem_cons.mp hShort
  have hSame : (UInt32.ofNat ((elements.get i).length + 1)).toNat =
      (elements.get i).length + 1 := by
    rw [UInt32.toNat_ofNat', Nat.mod_eq_of_lt (by omega)]
  have hOld := hr.counts_eq hRest
  rw [h.counts_eq, hSame, hr.counts_size, if_pos hNew, Vec.get_set]
  split_ifs with hkd
  · rw [hkd, hOld _ hNew, List.count_cons_self, UInt32.ofNat_add]
    rfl
  · rw [hOld k hk, List.count_cons_of_ne (Ne.symm hkd)]

/-- A chain may get as long as the depth that is recorded for it. -/
theorem of_appended {t' : HashTableBase α} (hr : t.Recorded depths)
    {elements : Vec (List (HashElement α))} (hElements : t.pElements = some elements) {i : Nat}
    {x : α} {chain : List (HashElement α)} (h : Appended t t' elements i x chain) :
    t'.Recorded (((elements.get i).length + 1) :: depths) := by
  have hMax := maxDepth_of_appended h
  have hBelow : ∀ k, 1 ≤ k → k ≤ (elements.get i).length + 1 →
      k ∈ ((elements.get i).length + 1) :: depths := by
    intro k hPos hk
    by_cases hEq : k = (elements.get i).length + 1
    · simp [hEq]
    · exact List.mem_cons_of_mem _ (hr.chain elements hElements i k hPos (by omega))
  constructor
  case size_ne =>
    rw [h.size_eq]
    exact hr.size_ne
  case none_eq => simp [h.table_eq]
  case chain =>
    intro elements' hElements' j d hPos hd
    obtain rfl : elements.set i chain = elements' :=
      Option.some.inj (h.table_eq.symm.trans hElements')
    rw [Vec.get_set] at hd
    split_ifs at hd with hji
    · exact hBelow d hPos (hd.trans h.length_le)
    · exact List.mem_cons_of_mem _ (hr.chain elements hElements j d hPos hd)
  case counts_size =>
    rw [h.counts_eq, ← hr.counts_size]
    split_ifs <;> rfl
  case closed =>
    intro d hd
    rcases List.mem_cons.mp hd with rfl | hd
    · exact ⟨by omega, hBelow⟩
    · obtain ⟨hPos, hClosed⟩ := hr.closed d hd
      exact ⟨hPos, fun k hk hkd => List.mem_cons_of_mem _ (hClosed k hk hkd)⟩
  case le_maxDepth =>
    intro d hd hBound
    rcases List.mem_cons.mp hd with rfl | hd
    · rw [Nat.mod_eq_of_lt hBound] at hMax
      omega
    · have hOld := hr.le_maxDepth d hd hBound
      omega
  case maxDepth_lt =>
    intro hShort
    obtain ⟨hNew, hRest⟩ := List.forall_mem_cons.mp hShort
    have hOld := hr.maxDepth_lt hRest
    omega
  case counts_eq =>
    intro hShort k hk
    exact hr.counts_of_appended h hShort hk

variable [BEq α] [Hashable α]

theorem erase (hr : t.Recorded depths) (pData : Option α) :
    (t.erase pData).1.Recorded depths := by
  cases hElements : t.pElements with
  | none => simpa [HashTableBase.erase, hElements] using hr
  | some elements =>
      cases pData with
      | none => simpa [HashTableBase.erase, hElements] using hr
      | some x =>
          rcases erase_cases hElements hr.size_ne x with
            ⟨_, hErase⟩ | ⟨front, e, back, hChain, _, hErase⟩
          · rw [hErase]
            exact hr
          · rw [hErase]
            apply hr.of_same hElements rfl
            · rw [removeElement]
              split_ifs <;> rfl
            · simp [hChain]
            · rw [removeElement]
              split_ifs <;> rfl
            · rw [removeElement]
              split_ifs <;> rfl

/-- A recorded depth is one more than the length of its chain. -/
theorem insert (hr : t.Recorded depths) (pData : Option α) (alloc : Bool) (now : Int) :
    (t.insert pData alloc now).1.Recorded ((t.recordedDepth pData).toList ++ depths) := by
  cases hElements : t.pElements with
  | none => simpa [HashTableBase.insert, recordedDepth, hElements] using hr
  | some elements =>
      cases pData with
      | none => simpa [HashTableBase.insert, recordedDepth, hElements] using hr
      | some x =>
          obtain ⟨chain, ⟨hDepth, h⟩ | ⟨hDepth, h⟩⟩ := insert_cases hElements x alloc now
          · rw [hDepth]
            exact hr.of_same hElements h.table_eq h.size_eq h.length_eq h.maxDepth_eq h.counts_eq
          · rw [hDepth]
            exact hr.of_appended hElements h

end Recorded

theorem initial_recorded (iDesiredSize : Nat) (alloc : Bool) :
    (hashInitialize ({} : HashTableBase α) iDesiredSize alloc).1.Recorded [] := by
  have hSize : calcSize iDesiredSize ≠ 0 := by
    have hPos := calcSize_pos iDesiredSize
    omega
  cases alloc with
  | true =>
      refine ⟨hSize, fun _ => rfl, ?_, rfl, by simp, by simp,
        fun _ => by simp [hashInitialize, reset], fun _ _ _ => rfl⟩
      intro elements hElements i d hPos hd
      obtain rfl := Option.some.inj hElements
      simp only [List.length_nil] at hd
      omega
  | false =>
      refine ⟨hSize, fun _ => rfl, ?_, rfl, by simp, by simp,
        fun _ => by simp [hashInitialize, reset], fun _ _ _ => rfl⟩
      intro elements hElements
      cases hElements

variable [BEq α] [Hashable α]

theorem update_recorded (s : HashTableBase α × List Nat) (u : Update α)
    (s' : HashTableBase α × List Nat) (hr : s.1.Recorded s.2) (hStep : update s u = some s') :
    s'.1.Recorded s'.2 := by
  cases u with
  | insert pData alloc now =>
      obtain rfl := Option.some.inj hStep
      exact hr.insert pData alloc now
  | erase pData =>
      obtain rfl := Option.some.inj hStep
      exact hr.erase pData

/-- In every state of every run, the statistics are in range exactly if the
table has no entries, or no node was added at a depth of 20 or more and the
depths add up to less than `2 ^ 32`. -/
theorem always_inRange_iff (iDesiredSize : Nat) (alloc : Bool) (updates : List (Update α)) :
    Always update
      (fun s => s.1.StatisticsInRange s.2 ↔
        s.1.iEntries = 0 ∨ (∀ d ∈ s.2, d < 20) ∧ s.2.sum < 2 ^ 32)
      ((hashInitialize {} iDesiredSize alloc).1, []) updates := by
  have hInvariant : Always update (fun s => s.1.Recorded s.2)
      ((hashInitialize ({} : HashTableBase α) iDesiredSize alloc).1, []) updates :=
    always_of_invariant update_recorded updates (initial_recorded iDesiredSize alloc)
  apply hInvariant.mono
  intro s hr
  exact hr.inRange_iff

/-- Twenty keys of one bucket. -/
def colliding : List (Update Nat) :=
  (List.range 20).map fun i => .insert (some (16001 * i)) true 0

theorem not_inRange_colliding :
    ¬Always update (fun s => s.1.StatisticsInRange s.2)
      ((hashInitialize {} 10 true).1, []) colliding := by
  intro hAlways
  have hRun : ((run update ((hashInitialize {} 10 true).1, []) colliding).map
      fun s => s.1.clear.isSome) = some false := by
    decide +kernel
  obtain ⟨s, hFinish, hClear⟩ := Option.map_eq_some_iff.mp hRun
  have hRange := (hAlways.finish hFinish).in_range
  rw [hClear] at hRange
  cases hRange

end CppPerf.HashTable.HashTableBase
