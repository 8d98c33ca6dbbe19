import CppPerf.Arrays.PartialSum
import CppPerf.Semantics.OrderedMap
import CppPerf.Semantics.SetHistory
import CppPerf.Semantics.SwapRemove
import Mathlib.Data.Set.Function

/-! `RandomizedSet` of `Random.cpp`. The random engine is an argument of `getRandom`, which fails
on a number outside of the range of the distribution. -/
namespace CppPerf.Random

open Text Arrays Ordered SetHistory SwapRemove

structure RandomizedSet where
  indexMap : List Int
  valueMap : OrderedMap Int Int

namespace RandomizedSet

def construct : RandomizedSet := ⟨[], OrderedMap.empty⟩

/-- An element is read or written at an `int` index. -/
def at_index (indexMap : List Int) (i : Int) : Option Int :=
  if 0 ≤ i then indexMap[i.toNat]? else none

def set_index (indexMap : List Int) (i val : Int) : Option (List Int) :=
  if 0 ≤ i ∧ i < indexMap.length then some (indexMap.set i.toNat val) else none

def insert (s : RandomizedSet) (val : Int) : Bool × RandomizedSet :=
  if (s.valueMap.lookup val).isSome then (false, s)
  else
    let size := s.valueMap.entries.length
    (true, ⟨s.indexMap ++ [val], s.valueMap.set val (int size)⟩)

def remove (s : RandomizedSet) (val : Int) : Option (Bool × RandomizedSet) :=
  match s.valueMap.lookup val with
  | none => some (false, s)
  | some remIndex => do
      let valueMap := s.valueMap.erase val
      let last := int (s.indexMap.length - 1)
      let (indexMap, valueMap) ←
        if remIndex < last then do
          let moved ← at_index s.indexMap last
          let indexMap ← set_index s.indexMap remIndex moved
          some (indexMap, valueMap.set moved remIndex)
        else some (s.indexMap, valueMap)
      if indexMap = [] then none
      else some (true, ⟨indexMap.dropLast, valueMap⟩)

def getRandom (s : RandomizedSet) (r : Int) : Option Int :=
  if 0 ≤ r ∧ r ≤ int (s.indexMap.length - 1) then at_index s.indexMap r else none

inductive Call where
  | insert (val : Int)
  | remove (val : Int)

def call (s : RandomizedSet) : Call → Option (Bool × RandomizedSet)
  | .insert val => some (s.insert val)
  | .remove val => s.remove val

/-- The calls one after the other, and what they return. -/
def run : RandomizedSet → List Call → Option (List Bool × RandomizedSet)
  | s, [] => some ([], s)
  | s, c :: calls => do
      let (answer, s) ← s.call c
      let (answers, s) ← run s calls
      return (answer :: answers, s)

def Call.event : Call → Event Int
  | insert val => .inserted val
  | remove val => .erased val

/-- What a call has to answer behind a history. -/
def Call.answer (past : List (Event Int)) : Call → Bool
  | insert val => !member past val
  | remove val => member past val

/-- What the calls have to answer, one after the other. -/
def answers : (past : List (Event Int)) → List Call → List Bool
  | _, [] => []
  | past, c :: calls => c.answer past :: answers (c.event :: past) calls

/-- The history of a sequence of calls. -/
def history (calls : List Call) : List (Event Int) := (calls.map Call.event).reverse

variable {s s' : RandomizedSet} {past : List (Event Int)} {val v : Int} {i : Nat}

theorem getElem?_concat_eq_some_iff {l : List Int} {x : Int} : (l ++ [x])[i]? = some v ↔
    l[i]? = some v ∨ i = l.length ∧ x = v := by
  rcases Nat.lt_trichotomy i l.length with hLt | rfl | hGt
  · rw [List.getElem?_append_left hLt]
    exact (or_iff_left fun hLast => hLt.ne hLast.1).symm
  · rw [List.getElem?_concat_length, List.getElem?_eq_none (Nat.le_refl _), Option.some.injEq]
    simp
  · rw [List.getElem?_eq_none (by simp; omega), List.getElem?_eq_none (by omega)]
    refine iff_of_false (Option.some_ne_none v).symm ?_
    rintro (hNone | ⟨rfl, -⟩)
    · cases hNone
    · exact Nat.lt_irrefl _ hGt

/-- The two views are inverse to each other, and both have the members. -/
structure Inverse (s : RandomizedSet) (past : List (Event Int)) : Prop where
  lookup_iff : ∀ v r, s.valueMap.lookup v = some r ↔ ∃ i : Nat, r = i ∧ s.indexMap[i]? = some v
  member_iff : ∀ v, member past v = true ↔ v ∈ s.indexMap
  length : s.valueMap.entries.length = s.indexMap.length

theorem Inverse.start : Inverse construct [] where
  lookup_iff := fun v r => iff_of_false nofun (by simp [construct])
  member_iff := fun v => by simp [construct]
  length := rfl

namespace Inverse

theorem index_eq (h : Inverse s past) {j : Nat} (hi : s.indexMap[i]? = some v)
    (hj : s.indexMap[j]? = some v) : i = j := by
  have hFirst := (h.lookup_iff v i).mpr ⟨i, rfl, hi⟩
  rw [(h.lookup_iff v j).mpr ⟨j, rfl, hj⟩, Option.some.injEq] at hFirst
  omega

theorem nodup (h : Inverse s past) : s.indexMap.Nodup := by
  rw [List.nodup_iff_getElem?_ne_getElem?]
  intro i j hij hj hSame
  rw [List.getElem?_eq_getElem hj] at hSame
  exact hij.ne (h.index_eq hSame (List.getElem?_eq_getElem hj))

theorem perm_keysOf (h : Inverse s past) : (keysOf past).Perm s.indexMap := by
  have hKeys : (keysOf past).Nodup := (keysOf_pairwise past).imp fun hNe => by simpa using hNe
  rw [List.perm_ext_iff_of_nodup hKeys h.nodup]
  intro v
  rw [← h.member_iff, member_iff_keysOf]
  simp

theorem lookup_isSome (h : Inverse s past) (v : Int) :
    (s.valueMap.lookup v).isSome = member past v := by
  rw [Bool.eq_iff_iff, h.member_iff, Option.isSome_iff_exists, List.mem_iff_getElem?]
  simp only [h.lookup_iff]
  constructor
  · rintro ⟨_, i, -, hi⟩
    exact ⟨i, hi⟩
  · rintro ⟨i, hi⟩
    exact ⟨i, i, rfl, hi⟩

/-- A new value gets the first free index. -/
theorem insert (h : Inverse s past) (val : Int)
    (hSize : (keysOf (.inserted val :: past)).length ≤ 2 ^ 31) :
    ∃ s', s.insert val = (!member past val, s') ∧ Inverse s' (.inserted val :: past) := by
  have hIsSome := h.lookup_isSome val
  rw [RandomizedSet.insert, hIsSome]
  by_cases hMember : member past val = true
  · refine ⟨s, by rw [if_pos hMember, hMember]; rfl, h.lookup_iff, fun v => ?_, h.length⟩
    rw [member_inserted, Bool.or_eq_true, h.member_iff, beq_iff_eq, or_iff_right_of_imp]
    rintro rfl
    exact (h.member_iff val).mp hMember
  · have hAbsent : val ∉ s.indexMap := fun hMem => hMember ((h.member_iff val).mpr hMem)
    rw [Bool.not_eq_true] at hMember
    rw [hMember, Option.isSome_eq_false_iff, Option.isNone_iff_eq_none] at hIsSome
    rw [length_keysOf_inserted, h.perm_keysOf.length_eq, hMember] at hSize
    have hIndex : int s.valueMap.entries.length = s.indexMap.length := by
      rw [h.length]
      exact int_eq_self (by omega) (by simp at hSize; omega)
    refine ⟨⟨s.indexMap ++ [val], s.valueMap.set val s.indexMap.length⟩, ?_, fun v r => ?_,
      fun v => ?_, ?_⟩
    · rw [if_neg (by rw [hMember]; exact Bool.false_ne_true), hMember]
      simp only [hIndex]
      rfl
    · simp only [getElem?_concat_eq_some_iff]
      by_cases hv : v = val
      · subst hv
        rw [OrderedMap.lookup_set_self, Option.some.injEq]
        constructor
        · rintro rfl
          exact ⟨_, rfl, Or.inr ⟨rfl, rfl⟩⟩
        · rintro ⟨i, rfl, hOld | ⟨rfl, -⟩⟩
          · exact absurd (List.mem_of_getElem? hOld) hAbsent
          · rfl
      · rw [OrderedMap.lookup_set_of_ne _ _ hv, h.lookup_iff]
        refine exists_congr fun i => and_congr_right fun _ => (or_iff_left ?_).symm
        exact fun hNew => hv hNew.2.symm
    · rw [member_inserted, Bool.or_eq_true, h.member_iff, beq_iff_eq, List.mem_append,
        List.mem_singleton, or_comm, eq_comm]
    · rw [OrderedMap.length_set_of_none _ _ hIsSome, h.length, List.length_append,
        List.length_singleton]

section Removed

variable {before : List Int} {y : Int} {k : Nat} {r : Int}

theorem inner_of_before (hMap : s.indexMap = before ++ [y]) (hi : before[i]? = some v) :
    s.indexMap[i]? = some v ∧ i < before.length := by
  rw [hMap, getElem?_concat_eq_some_iff]
  exact ⟨Or.inl hi, (List.getElem?_eq_some_iff.mp hi).1⟩

/-- The other values are where they were. -/
theorem lookup_other (h : Inverse s past) (hMap : s.indexMap = before ++ [y])
    (hk : s.indexMap[k]? = some val) (hNotLast : v ≠ y) (hNotVal : v ≠ val) :
    (s.valueMap.erase val).lookup v = some r ↔
      ∃ i : Nat, r = i ∧ (before.set k y)[i]? = some v := by
  rw [OrderedMap.lookup_erase_of_ne _ hNotVal, h.lookup_iff]
  refine exists_congr fun i => and_congr_right fun _ => ?_
  by_cases hi : k = i
  · subst hi
    rw [hk, Option.some.injEq]
    refine iff_of_false (Ne.symm hNotVal) fun hSet => ?_
    rw [List.getElem?_set, if_pos rfl] at hSet
    split_ifs at hSet
    exact hNotLast (Option.some.inj hSet).symm
  · rw [List.getElem?_set_ne hi, hMap, getElem?_concat_eq_some_iff]
    exact or_iff_left fun hNew => hNotLast hNew.2.symm

theorem not_getElem?_hole (h : Inverse s past) (hMap : s.indexMap = before ++ [y])
    (hk : s.indexMap[k]? = some val) (hNotLast : val ≠ y) (hInner : k < before.length) (i : Nat) :
    (before.set k y)[i]? ≠ some val := by
  intro hi
  by_cases hHole : k = i
  · subst hHole
    rw [List.getElem?_set_self hInner, Option.some.injEq] at hi
    exact hNotLast hi.symm
  · rw [List.getElem?_set_ne hHole] at hi
    exact hHole (h.index_eq hk (inner_of_before hMap hi).1)

theorem getElem?_hole_iff (h : Inverse s past) (hMap : s.indexMap = before ++ [y])
    (hInner : k < before.length) : (before.set k y)[i]? = some y ↔ i = k := by
  constructor
  · intro hi
    by_contra hNe
    rw [List.getElem?_set_ne (Ne.symm hNe)] at hi
    obtain ⟨hOld, hLt⟩ := inner_of_before hMap hi
    refine hLt.ne (h.index_eq hOld ?_)
    rw [hMap, List.getElem?_concat_length]
  · rintro rfl
    exact List.getElem?_set_self hInner

/-- The last value is found where it has filled the hole, and all others where they were. -/
theorem lookup_removed (h : Inverse s past) (hMap : s.indexMap = before ++ [y])
    (hk : s.indexMap[k]? = some val) :
    (if k < before.length then (s.valueMap.erase val).set y k else s.valueMap.erase val).lookup v =
      some r ↔ ∃ i : Nat, r = i ∧ (before.set k y)[i]? = some v := by
  split_ifs with hInner
  · by_cases hMoved : v = y
    · subst hMoved
      rw [OrderedMap.lookup_set_self, Option.some.injEq]
      simp only [h.getElem?_hole_iff hMap hInner, exists_eq_right]
      exact eq_comm
    · rw [OrderedMap.lookup_set_of_ne _ _ hMoved]
      by_cases hGone : v = val
      · subst hGone
        rw [OrderedMap.lookup_erase_self]
        refine iff_of_false nofun ?_
        rintro ⟨i, -, hi⟩
        exact h.not_getElem?_hole hMap hk hMoved hInner i hi
      · exact h.lookup_other hMap hk hMoved hGone
  · -- The last value itself is removed.
    have hLast : s.indexMap[before.length]? = some y := by
      rw [hMap, List.getElem?_concat_length]
    obtain ⟨hLt, -⟩ := List.getElem?_eq_some_iff.mp hk
    rw [hMap, List.length_append, List.length_singleton] at hLt
    obtain rfl : k = before.length := by omega
    obtain rfl : y = val := Option.some.inj (hLast.symm.trans hk)
    by_cases hGone : v = y
    · subst hGone
      rw [OrderedMap.lookup_erase_self, List.set_eq_of_length_le (Nat.le_refl _)]
      refine iff_of_false nofun ?_
      rintro ⟨i, -, hi⟩
      obtain ⟨hOld, hBefore⟩ := inner_of_before hMap hi
      exact hBefore.ne (h.index_eq hOld hLast)
    · exact h.lookup_other hMap hk hGone hGone

theorem length_removed (h : Inverse s past) (hMap : s.indexMap = before ++ [y])
    (hk : s.indexMap[k]? = some val) :
    (if k < before.length then (s.valueMap.erase val).set y k
      else s.valueMap.erase val).entries.length = before.length := by
  have hFound := (h.lookup_iff val k).mpr ⟨k, rfl, hk⟩
  have hErased := (s.valueMap.perm_of_lookup hFound).length_eq
  rw [h.length, hMap, List.length_append, List.length_singleton, List.length_cons,
    Nat.add_right_cancel_iff] at hErased
  split_ifs with hInner
  · have hLast : s.indexMap[before.length]? = some y := by
      rw [hMap, List.getElem?_concat_length]
    have hMoved : y ≠ val := by
      rintro rfl
      exact hInner.ne (h.index_eq hk hLast)
    have hThere : (s.valueMap.erase val).lookup y = some (before.length : Int) := by
      rw [OrderedMap.lookup_erase_of_ne _ hMoved, h.lookup_iff]
      exact ⟨_, rfl, hLast⟩
    rw [OrderedMap.length_set_of_some _ _ hThere, ← hErased]
  · exact hErased.symm

end Removed

/-- The last value fills the hole. -/
theorem remove (h : Inverse s past) (val : Int) (hSize : (keysOf past).length ≤ 2 ^ 31) :
    ∃ s', s.remove val = some (member past val, s') ∧ Inverse s' (.erased val :: past) := by
  have hIsSome := h.lookup_isSome val
  cases hLookup : s.valueMap.lookup val with
  | none =>
      rw [hLookup, Option.isSome_none] at hIsSome
      refine ⟨s, by rw [RandomizedSet.remove, hLookup, ← hIsSome], h.lookup_iff, fun v => ?_,
        h.length⟩
      rw [member_erased, Bool.and_eq_true, h.member_iff, Bool.not_eq_true', beq_eq_false_iff_ne]
      refine and_iff_right_of_imp fun hMem => ?_
      rintro rfl
      rw [(h.member_iff val).mpr hMem] at hIsSome
      cases hIsSome
  | some r =>
      rw [hLookup, Option.isSome_some] at hIsSome
      obtain ⟨k, rfl, hk⟩ := (h.lookup_iff val r).mp hLookup
      obtain ⟨before, y, hMap⟩ := exists_concat hk
      rw [h.perm_keysOf.length_eq, hMap, List.length_append, List.length_singleton] at hSize
      refine ⟨⟨swapRemove s.indexMap k, if k < before.length then (s.valueMap.erase val).set y k
        else s.valueMap.erase val⟩, ?_, fun v r => ?_, fun v => ?_, ?_⟩
      · have hEnd : int ((s.indexMap.length : Int) - 1) = before.length := by
          rw [hMap, List.length_append, List.length_singleton]
          refine (congrArg int ?_).trans (int_eq_self (x := before.length) (by omega) (by omega))
          omega
        rw [RandomizedSet.remove, hLookup, ← hIsSome]
        simp only [hEnd, Nat.cast_lt, Option.bind_eq_bind]
        by_cases hInner : k < before.length
        · have hMoved : at_index s.indexMap before.length = some y := by
            rw [at_index, if_pos (Int.natCast_nonneg _), hMap]
            exact List.getElem?_concat_length
          have hSet : set_index s.indexMap k y = some (before.set k y ++ [y]) := by
            rw [set_index, if_pos ⟨Int.natCast_nonneg _, by rw [hMap]; simp; omega⟩, hMap,
              Int.toNat_natCast, List.set_append_left _ _ hInner]
          simp only [hInner, if_true, hMoved, hSet, Option.bind_some]
          simp only [hMap, swapRemove_concat, List.dropLast_concat]
          exact if_neg (List.append_ne_nil_of_right_ne_nil _ (List.cons_ne_nil y []))
        · simp only [hInner, if_false, Option.bind_some, hMap, swapRemove_concat,
            List.dropLast_concat, List.set_eq_of_length_le (Nat.not_lt.mp hInner)]
          exact if_neg (List.append_ne_nil_of_right_ne_nil _ (List.cons_ne_nil y []))
      · show _ ↔ ∃ i : Nat, r = i ∧ (swapRemove s.indexMap k)[i]? = some v
        rw [h.lookup_removed hMap hk, hMap, swapRemove_concat]
      · rw [member_erased, Bool.and_eq_true, h.member_iff, Bool.not_eq_true', beq_eq_false_iff_ne,
          mem_swapRemove_iff h.nodup hk, and_comm, ne_comm]
      · show _ = (swapRemove s.indexMap k).length
        rw [h.length_removed hMap hk, hMap, swapRemove_concat, List.length_set]

theorem call (h : Inverse s past) (c : Call) (hSize : (keysOf past).length ≤ 2 ^ 31)
    (hNext : (keysOf (c.event :: past)).length ≤ 2 ^ 31) :
    ∃ s', s.call c = some (c.answer past, s') ∧ Inverse s' (c.event :: past) := by
  cases c with
  | insert val =>
      obtain ⟨s', hInsert, hInverse⟩ := h.insert val hNext
      exact ⟨s', congrArg some hInsert, hInverse⟩
  | remove val => exact h.remove val hSize

theorem run (h : Inverse s past) (calls : List Call)
    (hSize : ∀ n, (keysOf (history (calls.take n) ++ past)).length ≤ 2 ^ 31) :
    ∃ s', s.run calls = some (answers past calls, s') ∧ Inverse s' (history calls ++ past) := by
  induction calls generalizing s past with
  | nil => exact ⟨s, rfl, h⟩
  | cons c calls ih =>
      have hHistory : ∀ later : List Call,
          history (c :: later) ++ past = history later ++ c.event :: past := fun later => by
        simp [history]
      obtain ⟨s₁, hCall, hInverse⟩ := h.call c (hSize 0) (hSize 1)
      obtain ⟨s₂, hRun, hLast⟩ := ih hInverse fun n => by
        rw [← hHistory, ← List.take_succ_cons]
        exact hSize (n + 1)
      refine ⟨s₂, ?_, by rwa [hHistory]⟩
      simp only [RandomizedSet.run, hCall, hRun, Option.bind_eq_bind, Option.bind_some]
      rfl

end Inverse

/-- The index that is stored for a value. -/
def index (s : RandomizedSet) (v : Int) : Int := (s.valueMap.lookup v).getD (-1)

/-- The members are numbered from 0 on, they are found at their numbers, and they are what can be
drawn. -/
structure Consistent (s : RandomizedSet) (past : List (Event Int)) : Prop where
  absent : ∀ v, member past v = false → s.valueMap.lookup v = none
  index_bijOn : Set.BijOn s.index {v | member past v = true}
    {r | 0 ≤ r ∧ r < (keysOf past).length}
  at_index : ∀ v, member past v = true → at_index s.indexMap (s.index v) = some v
  draws : ∀ v, (∃ r, s.getRandom r = some v) ↔ member past v = true
  never_fails : ∀ r : Int, 0 ≤ r → r < (keysOf past).length → (s.getRandom r).isSome = true

theorem Inverse.exists_index (h : Inverse s past) (hv : member past v = true) :
    ∃ i : Nat, s.index v = i ∧ s.indexMap[i]? = some v := by
  obtain ⟨i, hi⟩ := List.mem_iff_getElem?.mp ((h.member_iff v).mp hv)
  refine ⟨i, ?_, hi⟩
  rw [index, (h.lookup_iff v i).mpr ⟨i, rfl, hi⟩, Option.getD_some]

theorem Inverse.getRandom (h : Inverse s past) (hSize : (keysOf past).length ≤ 2 ^ 31) (r : Int) :
    s.getRandom r = if 0 ≤ r ∧ r < (keysOf past).length then s.indexMap[r.toNat]? else none := by
  rw [h.perm_keysOf.length_eq] at hSize ⊢
  rw [RandomizedSet.getRandom, int_eq_self (by omega) (by omega)]
  by_cases hr : 0 ≤ r ∧ r < s.indexMap.length
  · rw [if_pos hr, if_pos ⟨hr.1, by omega⟩, RandomizedSet.at_index, if_pos hr.1]
  · rw [if_neg hr, if_neg (by omega)]

theorem Inverse.consistent (h : Inverse s past) (hSize : (keysOf past).length ≤ 2 ^ 31) :
    Consistent s past where
  absent := fun v hv => by
    rw [← h.lookup_isSome, Option.isSome_eq_false_iff, Option.isNone_iff_eq_none] at hv
    exact hv
  index_bijOn := by
    rw [h.perm_keysOf.length_eq]
    refine ⟨fun v hv => ?_, fun v hv w hw hSame => ?_, fun r hr => ?_⟩
    · obtain ⟨i, hIndex, hi⟩ := h.exists_index hv
      obtain ⟨hLt, -⟩ := List.getElem?_eq_some_iff.mp hi
      rw [hIndex]
      exact ⟨by omega, by omega⟩
    · obtain ⟨i, hIndex, hi⟩ := h.exists_index hv
      obtain ⟨j, hOther, hj⟩ := h.exists_index hw
      obtain rfl : i = j := by omega
      exact Option.some.inj (hi.symm.trans hj)
    · obtain ⟨hLow, hHigh⟩ := hr
      have hAt := List.getElem?_eq_getElem (show r.toNat < s.indexMap.length by omega)
      have hMember := (h.member_iff _).mpr (List.mem_of_getElem? hAt)
      obtain ⟨i, hIndex, hi⟩ := h.exists_index hMember
      refine ⟨_, hMember, ?_⟩
      have hSame := h.index_eq hi hAt
      omega
  at_index := fun v hv => by
    obtain ⟨i, hIndex, hi⟩ := h.exists_index hv
    rw [hIndex, RandomizedSet.at_index, if_pos (Int.natCast_nonneg i)]
    exact hi
  draws := fun v => by
    simp only [h.getRandom hSize]
    rw [h.member_iff, List.mem_iff_getElem?, h.perm_keysOf.length_eq]
    constructor
    · rintro ⟨r, hr⟩
      split_ifs at hr
      exact ⟨r.toNat, hr⟩
    · rintro ⟨i, hi⟩
      obtain ⟨hLt, -⟩ := List.getElem?_eq_some_iff.mp hi
      exact ⟨i, by rw [if_pos ⟨by omega, by omega⟩]; exact hi⟩
  never_fails := fun r hLow hHigh => by
    rw [h.getRandom hSize, if_pos ⟨hLow, hHigh⟩]
    rw [h.perm_keysOf.length_eq] at hHigh
    rw [List.getElem?_eq_getElem (by omega)]
    rfl

/-- As long as there are at most `2 ^ 31` members, both views agree with the calls. -/
theorem run_consistent (calls : List Call)
    (hSize : ∀ n, (keysOf (history (calls.take n))).length ≤ 2 ^ 31) :
    ∃ s, run construct calls = some (answers [] calls, s) ∧ Consistent s (history calls) := by
  obtain ⟨s, hRun, hInverse⟩ := Inverse.start.run calls (by simpa using hSize)
  rw [List.append_nil] at hInverse
  refine ⟨s, hRun, hInverse.consistent ?_⟩
  have hAll := hSize calls.length
  rwa [List.take_length] at hAll

theorem length_keysOf_le (past : List (Event Int)) : (keysOf past).length ≤ past.length := by
  induction past with
  | nil => exact Nat.le_refl 0
  | cons event past ih =>
      cases event with
      | inserted v =>
          rw [length_keysOf_inserted, List.length_cons]
          split_ifs
          · omega
          · omega
      | erased v =>
          rw [keysOf, List.length_cons]
          exact (List.length_filter_le _ _).trans (ih.trans (Nat.le_succ _))

theorem length_keysOf_take_le (calls : List Call) (n : Nat) :
    (keysOf (history (calls.take n))).length ≤ calls.length := by
  refine (length_keysOf_le _).trans ?_
  rw [history, List.length_reverse, List.length_map, List.length_take]
  exact Nat.min_le_right n calls.length

theorem run_consistent_four : ∃ s,
    run construct [.insert 5, .insert 7, .remove 5, .insert 7] =
      some ([true, true, true, false], s) ∧
    Consistent s [.inserted 7, .erased 5, .inserted 7, .inserted 5] :=
  run_consistent [.insert 5, .insert 7, .remove 5, .insert 7] fun n =>
    (length_keysOf_take_le _ n).trans (by decide)

section TooMany

/-- Calls that insert the least values of type `int`. -/
def inserts (n : Nat) : List Call :=
  (List.range n).map fun i : Nat => Call.insert ((i : Int) - 2147483648)

theorem inserts_succ (n : Nat) :
    inserts (n + 1) = inserts n ++ [Call.insert ((n : Int) - 2147483648)] := by
  rw [inserts, List.range_succ, List.map_append]
  rfl

theorem history_inserts_succ (n : Nat) :
    history (inserts (n + 1)) = .inserted ((n : Int) - 2147483648) :: history (inserts n) := by
  rw [inserts_succ, history, List.map_append, List.reverse_append]
  rfl

theorem member_inserts {n : Nat} (h : member (history (inserts n)) v = true) :
    v < (n : Int) - 2147483648 := by
  induction n with
  | zero => cases h
  | succ n ih =>
      rw [history_inserts_succ, member_inserted, Bool.or_eq_true, beq_iff_eq] at h
      rcases h with rfl | hOld
      · omega
      · have hLt := ih hOld
        omega

theorem not_member_inserts (n : Nat) :
    member (history (inserts n)) ((n : Int) - 2147483648) = false := by
  rw [← Bool.not_eq_true]
  intro hMember
  exact Int.lt_irrefl _ (member_inserts hMember)

theorem length_keysOf_inserts (n : Nat) : (keysOf (history (inserts n))).length = n := by
  induction n with
  | zero => rfl
  | succ n ih =>
      rw [history_inserts_succ, length_keysOf_inserted, ih, not_member_inserts]
      rfl

theorem run_append_singleton {calls : List Call} {c : Call} {t : RandomizedSet}
    {results : List Bool} {answer : Bool} (hRun : s.run calls = some (results, s'))
    (hCall : s'.call c = some (answer, t)) :
    s.run (calls ++ [c]) = some (results ++ [answer], t) := by
  induction calls generalizing s results with
  | nil =>
      obtain ⟨rfl, rfl⟩ := Prod.mk.inj (Option.some.inj hRun)
      simp [run, hCall]
  | cons d calls ih =>
      simp only [run, Option.bind_eq_bind, Option.bind_eq_some_iff, Prod.exists] at hRun
      obtain ⟨first, s₁, hFirst, rest, s₂, hRest, hEq⟩ := hRun
      obtain ⟨rfl, rfl⟩ := Prod.mk.inj (Option.some.inj hEq)
      simp [run, hFirst, ih hRest]

/-- The number of the last member is no `int`. -/
theorem not_run_consistent : ¬∀ calls : List Call,
    (∀ c ∈ calls, ∃ val : Int, -2 ^ 31 ≤ val ∧ val < 2 ^ 31 ∧ (c = .insert val ∨ c = .remove val)) →
    ∃ s, run construct calls = some (answers [] calls, s) ∧ Consistent s (history calls) := by
  intro hAll
  obtain ⟨s, hRun, hInverse⟩ := Inverse.start.run (inserts (2 ^ 31)) fun n => by
    rw [List.append_nil]
    refine (length_keysOf_take_le _ n).trans ?_
    rw [inserts, List.length_map, List.length_range]
  rw [List.append_nil] at hInverse
  have hNone : s.valueMap.lookup ((2 ^ 31 : Nat) - 2147483648) = none := by
    have hIsSome := hInverse.lookup_isSome ((2 ^ 31 : Nat) - 2147483648)
    rw [not_member_inserts, Option.isSome_eq_false_iff, Option.isNone_iff_eq_none] at hIsSome
    exact hIsSome
  have hLength : s.valueMap.entries.length = 2 ^ 31 := by
    rw [hInverse.length, ← hInverse.perm_keysOf.length_eq, length_keysOf_inserts]
  have hLast := run_append_singleton hRun
    (c := .insert ((2 ^ 31 : Nat) - 2147483648)) (t := ⟨_, _⟩) (by
      rw [call, insert, if_neg (by rw [hNone]; nofun)])
  rw [← inserts_succ] at hLast
  obtain ⟨t, hAgain, hConsistent⟩ := hAll (inserts (2 ^ 31 + 1)) (by
    intro c hc
    obtain ⟨i, hi, rfl⟩ := List.mem_map.mp hc
    have hLt := List.mem_range.mp hi
    exact ⟨_, by omega, by omega, Or.inl rfl⟩)
  rw [hLast, Option.some.injEq] at hAgain
  obtain rfl := (Prod.mk.inj hAgain).2
  have hMember : member (history (inserts (2 ^ 31 + 1))) ((2 ^ 31 : Nat) - 2147483648) = true := by
    rw [history_inserts_succ, member_inserted]
    simp
  have hIndex := (hConsistent.index_bijOn.1 hMember).1
  rw [index, OrderedMap.lookup_set_self, hLength] at hIndex
  exact absurd hIndex (by decide)

end TooMany

end RandomizedSet

end CppPerf.Random
