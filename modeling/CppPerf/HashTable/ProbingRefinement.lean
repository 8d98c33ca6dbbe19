import CppPerf.HashTable.Probing

/-! The probing table is a finite set after every history of calls, and its
iterators visit every stored key once. -/
namespace CppPerf.HashTable.HashTableProbing

open Indexed OpenAddressing SetHistory Transition

variable {α : Type*}

/-- The data of the valid ones among `left` slots from `first` on. -/
def validData (t : HashTableProbing α) (left first : Nat) : List α :=
  ((List.range' first left).filter fun s => (t.pElements.get s).valid).map
    fun s => (t.pElements.get s).data

theorem validData_succ (t : HashTableProbing α) (left first : Nat) :
    t.validData (left + 1) first =
      if (t.pElements.get first).valid then
        (t.pElements.get first).data :: t.validData left (first + 1)
      else t.validData left (first + 1) := by
  rw [validData, List.range'_succ, List.filter_cons]
  split_ifs <;> rfl

/-- `next` stops at a valid slot or at the end, and skips no data. -/
theorem nextLoop_spec (t : HashTableProbing α) (left first : Nat) :
    first ≤ t.nextLoop left first ∧
      (t.nextLoop left first = first + left ∨
        (t.nextLoop left first < first + left ∧
          (t.pElements.get (t.nextLoop left first)).valid = true)) ∧
      t.validData (first + left - t.nextLoop left first) (t.nextLoop left first) =
        t.validData left first := by
  induction left generalizing first with
  | zero => exact ⟨Nat.le_refl _, Or.inl rfl, by simp [nextLoop]⟩
  | succ left ih =>
      simp only [nextLoop]
      split_ifs with hValid
      · exact ⟨Nat.le_refl _, Or.inr ⟨by omega, hValid⟩, by simp⟩
      · obtain ⟨hGe, hStop, hData⟩ := ih (first + 1)
        rw [show first + 1 + left = first + (left + 1) by omega] at hStop hData
        refine ⟨by omega, hStop, ?_⟩
        rw [hData, validData_succ, if_neg hValid]

theorem next_spec (t : HashTableProbing α) (first : Nat) (hLe : first ≤ t.pElements.size) :
    first ≤ t.next first ∧
      (t.next first = t.pElements.size ∨
        (t.next first < t.pElements.size ∧ (t.pElements.get (t.next first)).valid = true)) ∧
      t.validData (t.pElements.size - t.next first) (t.next first) =
        t.validData (t.pElements.size - first) first := by
  have hSpec := t.nextLoop_spec (t.pElements.size - first) first
  rwa [show first + (t.pElements.size - first) = t.pElements.size by omega] at hSpec

theorem iterate_from (t : HashTableProbing α) (fuel first : Nat)
    (hStart : first = t.pElements.size ∨
      (first < t.pElements.size ∧ (t.pElements.get first).valid = true))
    (hFuel : t.pElements.size ≤ first + fuel) :
    t.iterate fuel first = some (t.validData (t.pElements.size - first) first) := by
  induction fuel generalizing first with
  | zero =>
      have hEnd : first = t.pElements.size := by omega
      simp [iterate, «end», hEnd, validData]
  | succ fuel ih =>
      rcases hStart with hEnd | ⟨hLt, hValid⟩
      · simp [iterate, «end», hEnd, validData]
      · obtain ⟨hGe, hStop, hData⟩ := t.next_spec (first + 1) hLt
        have hRest := ih (t.next (first + 1)) hStop (by omega)
        have hSplit : t.pElements.size - first = (t.pElements.size - (first + 1)) + 1 := by omega
        rw [hData] at hRest
        rw [iterate, if_neg (show ¬first = t.end by simp only [«end»]; omega)]
        simp only [hRest, Option.map_some]
        rw [hSplit, validData_succ, if_pos hValid]

/-- With a round for every slot the loop over the iterators ends, and it has
then visited the valid slots in order. -/
theorem iterate_begin (t : HashTableProbing α) (fuel : Nat) (hFuel : t.pElements.size ≤ fuel) :
    t.iterate fuel t.begin = some (t.validData t.pElements.size 0) := by
  obtain ⟨_, hStop, hData⟩ := t.next_spec 0 (Nat.zero_le _)
  have hRun := t.iterate_from fuel (t.next 0) hStop (by omega)
  rwa [hData, Nat.sub_zero] at hRun

theorem countP_validData [BEq α] (t : HashTableProbing α) (x : α) :
    (t.validData t.pElements.size 0).countP (· == x) =
      t.pElements.count fun e => e.valid && e.data == x := by
  rw [validData, List.countP_map, List.countP_filter, ← List.range_eq_range', Vec.count_eq_countP]
  apply List.countP_congr
  intro s _
  simp [Bool.and_comm]

variable [Hashable α]

/-- `t'` is `t` with a stored key written into slot `s`. -/
structure PutAt (t : HashTableProbing α) (x : α) (s : Nat) (t' : HashTableProbing α) : Prop where
  bucketSize_eq : t'.bucketSize = t.bucketSize
  probeLen_eq : t'.probeLen = t.probeLen
  pElements_eq : t'.pElements = t.pElements.set s ⟨hashVal x, x⟩
  elements_eq : t'.elements = t.elements + if (t.pElements.get s).valid then 0 else 1

theorem valid_stored (x : α) : (⟨hashVal x, x⟩ : ProbingElement α).valid = true := by
  have hEmpty := empty_eq_false_of_preHash (e := ⟨hashVal x, x⟩) (x := x) rfl
  have hTomb := tombStone_eq_false_of_preHash (e := ⟨hashVal x, x⟩) (x := x) rfl
  rw [ProbingElement.valid_eq, hEmpty, hTomb]
  rfl

theorem PutAt.cells_eq {t t' : HashTableProbing α} {x : α} {s : Nat} (hPut : t.PutAt x s t') :
    t'.cells = write t.cells s (.full x) := by
  funext j
  rw [cells, hPut.pElements_eq, Vec.get_set, write]
  split_ifs
  · exact (ProbingElement.cell_eq_full_iff _ x).mpr ⟨valid_stored x, rfl⟩
  · rfl

theorem PutAt.path_eq {t t' : HashTableProbing α} {x : α} {s : Nat} (hPut : t.PutAt x s t') :
    t'.path = t.path := by
  funext y
  simp [path, slot, hPut.bucketSize_eq, hPut.probeLen_eq]

variable [BEq α]

/-- The table answers like the finite set that its history describes, and a
loop over its iterators, given enough rounds, visits every member once. -/
structure RefinesSet (t : HashTableProbing α) (past : List (Event α)) : Prop where
  find_iff : ∀ x, (t.find x).isSome = member past x
  unique : ∀ s s', (t.pElements.get s).valid = true → (t.pElements.get s').valid = true →
    (t.pElements.get s).data == (t.pElements.get s').data → s = s'
  size_eq : t.size = t.pElements.count ProbingElement.valid
  iterate_once : ∀ fuel, t.pElements.size ≤ fuel → ∃ visited,
    t.iterate fuel t.begin = some visited ∧
      ∀ x, visited.countP (· == x) = if member past x then 1 else 0

/-- Invariant of all histories. -/
structure Consistent (t : HashTableProbing α) (past : List (Event α)) : Prop where
  bucketSize_pos : 0 < t.bucketSize
  size_eq : t.pElements.size = t.bucketSize
  kept : t.HashesKept
  paths : Invariant t.path t.cells
  elements_eq : t.elements = t.pElements.count ProbingElement.valid
  member_iff : ∀ x, member past x = true ↔ ∃ s k, t.cells s = .full k ∧ k == x

namespace Consistent

variable {t t' : HashTableProbing α} {past : List (Event α)}

theorem lt_of_valid (hc : t.Consistent past) {s : Nat}
    (hValid : (t.pElements.get s).valid = true) : s < t.pElements.size := by
  have hCell : t.cells s = .full (t.pElements.get s).data :=
    (ProbingElement.cell_eq_full_iff _ _).mpr ⟨hValid, rfl⟩
  rw [hc.size_eq]
  exact lt_of_mem_path hc.bucketSize_pos (hc.paths.reach s _ hCell).mem

/-- At most one slot without a mark holds the key. -/
theorem valid_unique (hc : t.Consistent past) (s s' : Nat)
    (hValid : (t.pElements.get s).valid = true) (hValid' : (t.pElements.get s').valid = true)
    (hEq : (t.pElements.get s).data == (t.pElements.get s').data) : s = s' := by
  have hCell : ∀ j, (t.pElements.get j).valid = true →
      t.cells j = .full (t.pElements.get j).data :=
    fun j hj => (ProbingElement.cell_eq_full_iff _ _).mpr ⟨hj, rfl⟩
  exact hc.paths.unique s s' _ _ (hCell s hValid) (hCell s' hValid') hEq

variable [EquivBEq α]

/-- Writing a key into a reachable slot that held no other key. -/
theorem put (hc : t.Consistent past) {x : α} {s : Nat} (hPut : t.PutAt x s t')
    (hReach : Reaches t.cells (t.path x) s)
    (hOnly : ∀ j k, j ≠ s → t.cells j = .full k → (k == x) = false)
    (hHeld : ∀ k, t.cells s = .full k → k == x) : t'.Consistent (.inserted x :: past) := by
  have hSlot : s < t.pElements.size := by
    rw [hc.size_eq]
    exact lt_of_mem_path hc.bucketSize_pos hReach.mem
  refine ⟨?_, ?_, ?_, ?_, ?_, ?_⟩
  · rw [hPut.bucketSize_eq]
    exact hc.bucketSize_pos
  · rw [hPut.pElements_eq, hPut.bucketSize_eq, Vec.size_set, hc.size_eq]
  · intro j hValid
    rw [hPut.pElements_eq] at hValid ⊢
    rw [Vec.get_set] at hValid ⊢
    split_ifs with hj
    · rfl
    · rw [if_neg hj] at hValid
      exact hc.kept j hValid
  · rw [hPut.path_eq, hPut.cells_eq]
    exact hc.paths.write_full hReach hOnly
  · have hCount := t.pElements.count_set ProbingElement.valid s ⟨hashVal x, x⟩ hSlot
    have hElements := hc.elements_eq
    rw [← hPut.pElements_eq, valid_stored] at hCount
    rw [hPut.elements_eq]
    cases hValid : (t.pElements.get s).valid <;> simp [hValid] at hCount ⊢ <;> omega
  · intro y
    rw [member_inserted, Bool.or_eq_true, hc.member_iff y, hPut.cells_eq]
    constructor
    · rintro (hxy | ⟨j, k, hCell, hKey⟩)
      · exact ⟨s, x, by simp [write], hxy⟩
      · by_cases hj : j = s
        · subst j
          exact ⟨s, x, by simp [write], BEq.trans (BEq.symm (hHeld k hCell)) hKey⟩
        · exact ⟨j, k, by simp [write, hj, hCell], hKey⟩
    · rintro ⟨j, k, hCell, hKey⟩
      unfold write at hCell
      split_ifs at hCell
      · obtain rfl := Cell.full.inj hCell
        exact Or.inl hKey
      · exact Or.inr ⟨j, k, hCell, hKey⟩

theorem count_key (hc : t.Consistent past) (x : α) :
    t.pElements.count (fun e => e.valid && e.data == x) = if member past x then 1 else 0 := by
  split_ifs with hMember
  · obtain ⟨s, k, hCell, hKey⟩ := (hc.member_iff x).mp hMember
    obtain ⟨hValid, hData⟩ := (ProbingElement.cell_eq_full_iff _ k).mp hCell
    apply Vec.count_eq_one _ _ s (hc.lt_of_valid hValid)
    · simp [hValid, hData, hKey]
    · intro j _ hj
      rw [Bool.and_eq_true] at hj
      rw [← hData] at hKey
      exact hc.valid_unique j s hj.1 hValid (BEq.trans hj.2 (BEq.symm hKey))
  · apply Vec.count_eq_zero
    intro s _
    by_contra hSome
    simp only [Bool.not_eq_false, Bool.and_eq_true] at hSome
    exact hMember ((hc.member_iff x).mpr
      ⟨s, _, (ProbingElement.cell_eq_full_iff _ _).mpr ⟨hSome.1, rfl⟩, hSome.2⟩)

variable [LawfulHashable α]

theorem findSlot_iff (hc : t.Consistent past) (x : α) (s : Nat) :
    t.findSlot x = some s ↔ ∃ k, t.cells s = .full k ∧ k == x := by
  rw [findSlot_eq hc.kept]
  exact hc.paths.lookup_iff t.path_congr x s

theorem find_isSome (hc : t.Consistent past) (x : α) : (t.find x).isSome = member past x := by
  rw [Bool.eq_iff_iff, hc.member_iff x, Option.isSome_iff_exists]
  exact exists_congr fun s => hc.findSlot_iff x s

theorem refinesSet (hc : t.Consistent past) : t.RefinesSet past where
  find_iff := hc.find_isSome
  unique := hc.valid_unique
  size_eq := hc.elements_eq
  iterate_once := by
    intro fuel hFuel
    refine ⟨_, t.iterate_begin fuel hFuel, fun x => ?_⟩
    rw [countP_validData, hc.count_key x]

/-- `insert` refuses the key and changes nothing, or it keeps the invariant. -/
theorem insert (hc : t.Consistent past) (x : α) :
    t.insert x = (t, none, false) ∨
      ∃ t' s isNew, t.insert x = (t', some s, isNew) ∧ t'.Consistent (.inserted x :: past) := by
  have hLookup := lookup_eq_place t.cells (fun _ next => next) x none (t.path x)
  rw [insert_eq hc.kept]
  cases hPlace : place t.cells (fun _ next => next) x none (t.path x) with
  | none => exact Or.inl rfl
  | some r =>
      right
      rw [hPlace] at hLookup
      obtain ⟨s, isNew⟩ := r
      cases isNew with
      | true =>
          have hAbsent : Absent t.cells x := (hc.paths.absent_iff t.path_congr x).mp hLookup
          obtain ⟨hFree, hReach⟩ := place_new (fun _ _ => Or.inr rfl) hPlace
          have hInvalid : (t.pElements.get s).valid = false := by
            by_contra hValid
            exact hFree _ ((ProbingElement.cell_eq_full_iff _ _).mpr ⟨by simpa using hValid, rfl⟩)
          refine ⟨_, s, true, rfl, hc.put ⟨rfl, rfl, rfl, ?_⟩ hReach ?_ ?_⟩
          · simp [hInvalid]
          · exact fun j k _ hCell => hAbsent j k hCell
          · exact fun k hCell => absurd hCell (hFree k)
      | false =>
          obtain ⟨k, hCell, hKey⟩ := (hc.paths.lookup_iff t.path_congr x s).mp hLookup
          obtain ⟨hValid, hData⟩ := (ProbingElement.cell_eq_full_iff _ k).mp hCell
          have hSame : (t.pElements.get s).preHash = hashVal x := by
            rw [hc.kept s hValid, hData, hashVal_congr hKey]
          refine ⟨_, s, false, rfl, hc.put (s := s) ⟨rfl, rfl, ?_, ?_⟩ ?_ ?_ ?_⟩
          · simp only [hSame]
          · simp [hValid]
          · rw [← t.path_congr k x hKey]
            exact hc.paths.reach s k hCell
          · intro j k' hne hCell'
            by_contra hMatch
            exact hne (hc.paths.unique j s k' k hCell' hCell
              (BEq.trans (by simpa using hMatch) (BEq.symm hKey)))
          · intro k' hCell'
            rw [hCell] at hCell'
            rwa [← Cell.full.inj hCell']

/-- A successful `erase` buries the cell of the key. -/
theorem erase (hc : t.Consistent past) {x : α} {s : Nat} (hFind : t.findSlot x = some s) :
    (t.erase x).2 = 1 ∧ (t.erase x).1.Consistent (.erased x :: past) := by
  obtain ⟨k, hCell, hKey⟩ := (hc.findSlot_iff x s).mp hFind
  obtain ⟨hValid, _⟩ := (ProbingElement.cell_eq_full_iff _ k).mp hCell
  have hSlot := hc.lt_of_valid hValid
  have hBuried : (⟨maskTomb, (t.pElements.get s).data⟩ : ProbingElement α).cell = .tomb :=
    ProbingElement.cell_buried _
  have hDead : (⟨maskTomb, (t.pElements.get s).data⟩ : ProbingElement α).valid = false :=
    ProbingElement.not_valid_buried _
  simp only [HashTableProbing.erase, hFind]
  refine ⟨trivial, ?_⟩
  have hCells : cells { t with
      pElements := t.pElements.set s ⟨maskTomb, (t.pElements.get s).data⟩
      elements := t.elements - 1 } = write t.cells s .tomb := by
    funext j
    simp only [cells, Vec.get_set, write]
    split_ifs
    · exact hBuried
    · rfl
  refine ⟨hc.bucketSize_pos, hc.size_eq, ?_, ?_, ?_, ?_⟩
  · intro j hj
    simp only [Vec.get_set] at hj ⊢
    split_ifs at hj ⊢ with hjs
    · rw [hDead] at hj
      cases hj
    · exact hc.kept j hj
  · rw [hCells]
    exact hc.paths.write_tomb s
  · have hCount := t.pElements.count_set ProbingElement.valid s
      ⟨maskTomb, (t.pElements.get s).data⟩ hSlot
    rw [hDead, hValid] at hCount
    have hElements := hc.elements_eq
    simp only [Bool.toNat_true, Bool.toNat_false, Nat.add_zero] at hCount ⊢
    omega
  · intro y
    rw [member_erased, Bool.and_eq_true, hc.member_iff y, hCells]
    constructor
    · rintro ⟨hxy, j, k', hCell', hKey'⟩
      refine ⟨j, k', ?_, hKey'⟩
      have hj : j ≠ s := by
        rintro rfl
        rw [hCell] at hCell'
        obtain rfl := Cell.full.inj hCell'
        rw [BEq.congr_left (BEq.symm hKey), hKey'] at hxy
        cases hxy
      simp [write, hj, hCell']
    · rintro ⟨j, k', hCell', hKey'⟩
      unfold write at hCell'
      split_ifs at hCell' with hj
      refine ⟨?_, j, k', hCell', hKey'⟩
      by_contra hxy
      have hSame : x == y := by simpa using hxy
      exact hj (hc.paths.unique j s k' k hCell' hCell
        (BEq.trans hKey' (BEq.trans (BEq.symm hSame) (BEq.symm hKey))))

end Consistent

/-- A constructed table after `HashInitialize`. -/
def initial [Inhabited α] (iDesiredSize : Nat) : HashTableProbing α × List (Event α) :=
  (hashInitialize new iDesiredSize, [])

theorem initial_consistent [Inhabited α] (iDesiredSize : Nat) :
    (initial (α := α) iDesiredSize).1.Consistent (initial iDesiredSize).2 := by
  have hPos := calcSize_pos iDesiredSize
  have hGet : ∀ s, (hashInitialize (new : HashTableProbing α) iDesiredSize).pElements.get s =
      default := by
    intro s
    simp [hashInitialize, new, Vec.empty, Vec.resize, hPos]
  have hInvalid : (default : ProbingElement α).valid = false := by
    have hMask : (maskEmpty &&& maskValid == 0) = false := by decide
    exact hMask
  have hNotFull : ∀ s k, (hashInitialize (new : HashTableProbing α) iDesiredSize).cells s ≠
      .full k := by
    intro s k hCell
    have hValid := ((ProbingElement.cell_eq_full_iff _ k).mp hCell).1
    rw [hGet s, hInvalid] at hValid
    cases hValid
  refine ⟨hPos, ?_, ?_, ⟨?_, ?_⟩, ?_, ?_⟩
  · simp [initial, hashInitialize, new, Vec.empty, Vec.resize, hPos]
  all_goals simp only [initial]
  · intro s hValid
    rw [hGet s, hInvalid] at hValid
    cases hValid
  · intro s k hCell
    exact absurd hCell (hNotFull s k)
  · intro s s' k k' hCell
    exact absurd hCell (hNotFull s k)
  · symm
    apply Vec.count_eq_zero
    intro s _
    rw [hGet s, hInvalid]
  · intro x
    simp [hNotFull]

variable [EquivBEq α] [LawfulHashable α]

/-- No call is undefined, and every call keeps the invariant. -/
theorem step_consistent (s : HashTableProbing α × List (Event α)) (call : Call α)
    (hc : s.1.Consistent s.2) : ∃ s', step s call = some s' ∧ s'.1.Consistent s'.2 := by
  obtain ⟨t, past⟩ := s
  cases call with
  | insert x =>
      rcases hc.insert x with hRefused | ⟨t', slot, isNew, hInsert, hc'⟩
      · exact ⟨(t, past), by simp [step, hRefused], hc⟩
      · exact ⟨(t', .inserted x :: past), by simp [step, hInsert], hc'⟩
  | erase x =>
      cases hFind : t.findSlot x with
      | none => exact ⟨(t, past), by simp [step, erase, hFind], hc⟩
      | some slot =>
          obtain ⟨hOne, hc'⟩ := hc.erase hFind
          exact ⟨((t.erase x).1, .erased x :: past), by simp [step, hOne], hc'⟩
  | find x => exact ⟨(t, past), rfl, hc⟩

/-- After any sequence of calls on an initialised table it is the finite set
of its history, and iteration visits each stored key exactly once. -/
theorem run_refinesSet [Inhabited α] (iDesiredSize : Nat) (calls : List (Call α)) :
    ∃ t past, run step (initial iDesiredSize) calls = some (t, past) ∧ t.RefinesSet past := by
  obtain ⟨⟨t, past⟩, hRun, hc⟩ :=
    run_of_invariant step_consistent calls (initial_consistent iDesiredSize)
  exact ⟨t, past, hRun, hc.refinesSet⟩

theorem run_refinesSet_insert_erase : ∃ t past,
    run step (initial 10) [.insert 3, .insert 16004, .erase 3] = some (t, past) ∧
      RefinesSet (α := Nat) t past :=
  run_refinesSet 10 [.insert 3, .insert 16004, .erase 3]

end CppPerf.HashTable.HashTableProbing
