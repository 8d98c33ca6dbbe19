import CppPerf.Text.Digits
import Mathlib.Algebra.Order.Ring.Int

/-! The search in a mountain of `MountainArray.cpp`. Sums of two positions are of type `int`.
Reading or writing an element that does not exist fails. -/
namespace CppPerf.Arrays.MountainArray

open Text

def getAt (l : List Int) (k : Int) : Option Int := if 0 ≤ k then l[k.toNat]? else none

/-- `MountainArray::get` -/
def get (arr : List Int) (k : Int) : Int := (getAt arr k).getD (-1)

/-- The member `mountain`, and the positions for which `get` has been called. -/
structure MountainArrayQuery where
  mountain : List Int
  asked : List Int

def query (arr : List Int) (q : MountainArrayQuery) (k : Int) : Option MountainArrayQuery := do
  if (← getAt q.mountain k) < 0 then
    return ⟨q.mountain.set k.toNat (get arr k), k :: q.asked⟩
  return q

def find_top_loop (arr : List Int) : (rounds : Nat) → (low high : Int) → MountainArrayQuery →
    Option (Int × MountainArrayQuery)
  | 0, _, _, _ => none
  | rounds + 1, low, high, q =>
      if low < high then do
        let mid := (int (low + high)).tdiv 2
        let q ← query arr q mid
        let q ← query arr q (mid + 1)
        let here ← getAt q.mountain mid
        let next ← getAt q.mountain (mid + 1)
        let low := if here < next then mid + 1 else low
        let high := if next < here then mid else high
        find_top_loop arr rounds low high q
      else some (low, q)

/-- The loop that goes on behind `mid` if the target lies behind the value there. -/
def find_loop (behind : Int → Int → Bool) (arr : List Int) (target : Int) :
    (rounds : Nat) → (low high : Int) → MountainArrayQuery → Option (Int × MountainArrayQuery)
  | 0, _, _, _ => none
  | rounds + 1, low, high, q =>
      if low ≤ high then do
        let mid := (int (low + high)).tdiv 2
        let q ← query arr q mid
        let value ← getAt q.mountain mid
        if target = value then return (mid, q)
        if behind target value then find_loop behind arr target rounds (mid + 1) high q
        else find_loop behind arr target rounds low (mid - 1) q
      else some (-1, q)

/-- Where the values increase, a target that is greater lies behind a value. -/
def above (target value : Int) : Bool := target > value
def below (target value : Int) : Bool := target < value

def findInMountainArrayInc_loop := find_loop above

def findInMountainArrayDec_loop := find_loop below

/-- Each loop has fewer rounds than there are elements, or ends after one round. -/
def findInMountainArray (arr : List Int) (target : Int) :
    Option (Int × MountainArrayQuery) := do
  let size := int arr.length
  if size < 0 then none
  let rounds := arr.length + 1
  let q : MountainArrayQuery := ⟨List.replicate size.toNat (-1), []⟩
  let (top, q) ← find_top_loop arr rounds 0 (size - 1) q
  let (found, q) ← findInMountainArrayInc_loop arr target rounds 0 top q
  if found < 0 then findInMountainArrayDec_loop arr target rounds (top + 1) (size - 1) q
  else return (found, q)

/-! The search in a mountain finds the first position of its target. -/

variable {arr : List Int} {q : MountainArrayQuery} {p k : Nat} {v target : Int}

/-- The values increase up to the peak and decrease after it. -/
structure IsMountain (arr : List Int) (p : Nat) : Prop where
  peak : p < arr.length
  nonneg : ∀ v ∈ arr, 0 ≤ v
  increasing : ∀ i j v w, i < j → j ≤ p → arr[i]? = some v → arr[j]? = some w → v < w
  decreasing : ∀ i j v w, p ≤ i → i < j → arr[i]? = some v → arr[j]? = some w → w < v

section Cache

/-- The values of the positions that have been asked for, each of them once. -/
structure Cached (arr : List Int) (q : MountainArrayQuery) : Prop where
  nodup : q.asked.Nodup
  entry : ∀ (k : Nat) (v : Int), arr[k]? = some v →
    q.mountain[k]? = some (if (k : Int) ∈ q.asked then v else -1)

theorem getAt_natCast (l : List Int) (k : Nat) : getAt l k = l[k]? := by
  rw [getAt, if_pos (by omega), Int.toNat_natCast]

theorem Cached.getAt_eq (h : Cached arr q) (hk : arr[k]? = some v) (hAsked : (k : Int) ∈ q.asked) :
    getAt q.mountain k = some v := by
  rw [getAt_natCast, h.entry k v hk, if_pos hAsked]

/-- A position is asked for unless it has been. -/
theorem query_spec (h : Cached arr q) (hk : arr[k]? = some v) (hv : 0 ≤ v) :
    ∃ q', query arr q k = some q' ∧ Cached arr q' ∧ (k : Int) ∈ q'.asked ∧ q.asked ⊆ q'.asked := by
  rw [query, getAt_natCast, h.entry k v hk]
  simp only [Option.bind_eq_bind, Option.bind_some]
  by_cases hAsked : (k : Int) ∈ q.asked
  · rw [if_pos hAsked, if_neg (by omega)]
    exact ⟨q, rfl, h, hAsked, List.Subset.refl _⟩
  · rw [if_neg hAsked, if_pos (by decide)]
    refine ⟨_, rfl, ⟨List.nodup_cons.mpr ⟨hAsked, h.nodup⟩, fun j w hj => ?_⟩, by simp, by simp⟩
    rw [Int.toNat_natCast, List.getElem?_set, h.entry j w hj, get, getAt_natCast, hk]
    by_cases hSame : k = j
    · subst hSame
      rw [hk] at hj
      have hBound := (List.getElem?_eq_some_iff.mp (h.entry k v hk)).1
      simp [hBound, Option.some.inj hj]
    · rw [if_neg hSame]
      simp [Ne.symm hSame]

end Cache

section Loops

variable {low high : Int} {rounds : Nat}

theorem exists_value (h : IsMountain arr p) (hk : k < arr.length) :
    ∃ v, arr[k]? = some v ∧ 0 ≤ v :=
  ⟨_, List.getElem?_eq_getElem hk, h.nonneg _ (List.getElem_mem hk)⟩

/-- The middle of two positions whose sum is an `int`. -/
theorem exists_middle (hLow : 0 ≤ low) (hLe : low ≤ high) (hSum : low + high < 2 ^ 31) :
    ∃ mid : Nat, (int (low + high)).tdiv 2 = mid ∧ low ≤ mid ∧ mid ≤ high ∧
      (low < high → mid < high) := by
  have hInt : int (low + high) = low + high := Int.bmod_eq_of_le (by omega) (by omega)
  rw [hInt, Int.tdiv_eq_ediv_of_nonneg (by omega)]
  exact ⟨((low + high) / 2).toNat, by omega, by omega, by omega, by omega⟩

theorem find_top_loop_spec (h : IsMountain arr p) (hSize : arr.length ≤ 2 ^ 30)
    (hCached : Cached arr q) (hLow : 0 ≤ low) (hPeak : low ≤ p) (hPeak' : p ≤ high)
    (hHigh : high < arr.length) (hRounds : high - low ≤ rounds) :
    ∃ q', find_top_loop arr (rounds + 1) low high q = some ((p : Int), q') ∧ Cached arr q' := by
  induction rounds generalizing low high q with
  | zero =>
      have hSame : low = p := by omega
      refine ⟨q, ?_, hCached⟩
      rw [find_top_loop, if_neg (by omega), hSame]
  | succ rounds ih =>
      rw [find_top_loop]
      split_ifs with hLt
      · obtain ⟨mid, hMid, hGe, -, hBelow⟩ := exists_middle hLow hLt.le (by omega)
        have hMidLt := hBelow hLt
        obtain ⟨v, hv, hNonneg⟩ := exists_value h (k := mid) (by omega)
        obtain ⟨w, hw, hNonneg'⟩ := exists_value h (k := mid + 1) (by omega)
        obtain ⟨q₁, hQuery, hCached₁, hAsked, -⟩ := query_spec hCached hv hNonneg
        obtain ⟨q₂, hQuery', hCached₂, hAsked', hSub⟩ := query_spec hCached₁ hw hNonneg'
        have hNext : (mid : Int) + 1 = ((mid + 1 : Nat) : Int) := rfl
        simp only [hMid, hNext, hQuery, hQuery', hCached₂.getAt_eq hv (hSub hAsked),
          hCached₂.getAt_eq hw hAsked', Option.bind_eq_bind, Option.bind_some]
        rcases Nat.lt_or_ge mid p with hUp | hDown
        · have hInc := h.increasing mid (mid + 1) v w (by omega) hUp hv hw
          rw [if_pos hInc, if_neg (by omega)]
          exact ih hCached₂ (by omega) (by omega) hPeak' hHigh (by omega)
        · have hDec := h.decreasing mid (mid + 1) v w hDown (by omega) hv hw
          rw [if_neg (by omega), if_pos hDec]
          exact ih hCached₂ hLow hPeak (by omega) (by omega) (by omega)
      · have hSame : low = p := by omega
        exact ⟨q, by rw [hSame], hCached⟩

/-- The only position from `first` to `last` with the target, or -1. -/
def Finds (arr : List Int) (target first last r : Int) : Prop :=
  (r = -1 ∧ ∀ i : Nat, first ≤ i → i ≤ last → arr[i]? ≠ some target) ∨
    ∃ i : Nat, r = i ∧ first ≤ i ∧ i ≤ last ∧ arr[i]? = some target

/-- A range in which a target lies behind each value that it passes. -/
def Ordered (behind : Int → Int → Bool) (arr : List Int) (first last : Int) : Prop :=
  ∀ (i j : Nat) (v w : Int), first ≤ i → i < j → j ≤ last → arr[i]? = some v →
    arr[j]? = some w → behind w v = true ∧ behind v w = false

theorem finds_none {first last : Int} (hOutside : ∀ i : Nat, first ≤ i → i ≤ last →
    arr[i]? = some target → low ≤ i ∧ i ≤ high) (hGt : ¬low ≤ high) :
    Finds arr target first last (-1) := by
  refine Or.inl ⟨rfl, fun i hi hi' hTarget => ?_⟩
  have hBetween := hOutside i hi hi' hTarget
  omega

theorem find_loop_spec (target : Int) {behind : Int → Int → Bool} {first last : Int}
    (h : IsMountain arr p)
    (hSize : arr.length ≤ 2 ^ 30) (hOrdered : Ordered behind arr first last)
    (hCached : Cached arr q) (hFirst : 0 ≤ first) (hLow : first ≤ low) (hHigh : high ≤ last)
    (hLast : last < arr.length) (hRounds : high - low < rounds)
    (hOutside : ∀ i : Nat, first ≤ i → i ≤ last → arr[i]? = some target → low ≤ i ∧ i ≤ high) :
    ∃ r q', find_loop behind arr target (rounds + 1) low high q = some (r, q') ∧ Cached arr q' ∧
      Finds arr target first last r := by
  induction rounds generalizing low high q with
  | zero =>
      refine ⟨-1, q, ?_, hCached, finds_none hOutside (by omega)⟩
      rw [find_loop, if_neg (by omega)]
  | succ rounds ih =>
      rw [find_loop]
      split_ifs with hLe
      · obtain ⟨mid, hMid, hGe, hMidLe, -⟩ := exists_middle (by omega) hLe (by omega)
        obtain ⟨v, hv, hNonneg⟩ := exists_value h (k := mid) (by omega)
        obtain ⟨q', hQuery, hCached', hAsked, -⟩ := query_spec hCached hv hNonneg
        simp only [hMid, hQuery, hCached'.getAt_eq hv hAsked, Option.bind_eq_bind,
          Option.bind_some]
        split_ifs with hEq hBehind
        · refine ⟨mid, q', rfl, hCached', Or.inr ⟨mid, rfl, by omega, by omega, ?_⟩⟩
          rw [hv, hEq]
        · have hOutside' : ∀ i : Nat, first ≤ i → i ≤ last → arr[i]? = some target →
              (mid : Int) + 1 ≤ i ∧ i ≤ high := by
            intro i hi hi' hTarget
            refine ⟨?_, (hOutside i hi hi' hTarget).2⟩
            rcases Nat.lt_trichotomy i mid with hLt | rfl | hGt
            · have hPair := hOrdered i mid target v hi hLt (by omega) hTarget hv
              rw [hPair.2] at hBehind
              cases hBehind
            · rw [hv, Option.some.injEq] at hTarget
              exact absurd hTarget.symm hEq
            · omega
          exact ih hCached' (by omega) hHigh (by omega) hOutside'
        · have hOutside' : ∀ i : Nat, first ≤ i → i ≤ last → arr[i]? = some target →
              low ≤ i ∧ i ≤ (mid : Int) - 1 := by
            intro i hi hi' hTarget
            refine ⟨(hOutside i hi hi' hTarget).1, ?_⟩
            rcases Nat.lt_trichotomy i mid with hLt | rfl | hGt
            · omega
            · rw [hv, Option.some.injEq] at hTarget
              exact absurd hTarget.symm hEq
            · have hPair := hOrdered mid i v target (by omega) hGt hi' hv hTarget
              exact absurd hPair.1 hBehind
          exact ih hCached' hLow (by omega) (by omega) hOutside'
      · exact ⟨-1, q, rfl, hCached, finds_none hOutside hLe⟩

theorem cached_start (arr : List Int) :
    Cached arr ⟨List.replicate arr.length (-1), []⟩ := by
  refine ⟨List.nodup_nil, fun k v hk => ?_⟩
  have hBound := (List.getElem?_eq_some_iff.mp hk).1
  simp [hBound]

end Loops

/-- The first position of the target, or -1 if it does not occur. -/
def FindsFirst (arr : List Int) (target r : Int) : Prop :=
  (r = -1 ∧ target ∉ arr) ∨
    ∃ i : Nat, r = i ∧ arr[i]? = some target ∧ ∀ j < i, arr[j]? ≠ some target

section Halves

variable (h : IsMountain arr p)
include h

theorem ordered_above : Ordered above arr 0 p := by
  intro i j v w hi hLt hj hv hw
  have hLess := h.increasing i j v w hLt (by omega) hv hw
  simp only [above, gt_iff_lt, decide_eq_true_eq, decide_eq_false_iff_not]
  omega

theorem ordered_below : Ordered below arr (p + 1) (arr.length - 1) := by
  intro i j v w hi hLt hj hv hw
  have hLess := h.decreasing i j v w (by omega) hLt hv hw
  simp only [below, decide_eq_true_eq, decide_eq_false_iff_not]
  omega

/-- A position up to the peak is the first one of its value. -/
theorem findsFirst_up {i : Nat} (hi : i ≤ p) (hTarget : arr[i]? = some target) :
    FindsFirst arr target i := by
  refine Or.inr ⟨i, rfl, hTarget, fun j hj hSame => ?_⟩
  exact absurd (h.increasing j i _ _ hj hi hSame hTarget) (lt_irrefl _)

/-- What the search behind the peak finds of a target that is not in front of it. -/
theorem findsFirst_down {r : Int} (hNone : ∀ i ≤ p, arr[i]? ≠ some target)
    (hFinds : Finds arr target (p + 1) (arr.length - 1) r) : FindsFirst arr target r := by
  rcases hFinds with ⟨rfl, hNoneDown⟩ | ⟨i, rfl, hi, hi', hTarget⟩
  · refine Or.inl ⟨rfl, fun hMem => ?_⟩
    obtain ⟨i, hi⟩ := List.mem_iff_getElem?.mp hMem
    have hBound := (List.getElem?_eq_some_iff.mp hi).1
    rcases Nat.lt_or_ge p i with hAfter | hBefore
    · exact hNoneDown i (by omega) (by omega) hi
    · exact hNone i hBefore hi
  · refine Or.inr ⟨i, rfl, hTarget, fun j hj hSame => ?_⟩
    rcases Nat.lt_or_ge p j with hAfter | hBefore
    · exact absurd (h.decreasing j i _ _ (by omega) hj hSame hTarget) (lt_irrefl _)
    · exact hNone j hBefore hSame

end Halves

/-- The target is found, and no position is asked for twice. What the cache holds are the
values of the positions asked for. -/
theorem findInMountainArray_spec (arr : List Int) (target : Int) (p : Nat)
    (h : IsMountain arr p) (hSome : 3 ≤ arr.length) (hSize : arr.length ≤ 2 ^ 30) :
    ∃ r q, findInMountainArray arr target = some (r, q) ∧ FindsFirst arr target r ∧
      q.asked.Nodup ∧ ∀ (k : Nat) (v : Int), arr[k]? = some v →
        q.mountain[k]? = some (if (k : Int) ∈ q.asked then v else -1) := by
  have hInt : int arr.length = arr.length := Int.bmod_eq_of_le (by omega) (by omega)
  have hPeak := h.peak
  have hRounds : (arr.length : Int) - 1 - 0 ≤ arr.length := by omega
  have hRounds' : (p : Int) - 0 < arr.length := by omega
  have hRounds'' : (arr.length : Int) - 1 - (p + 1) < arr.length := by omega
  obtain ⟨q₁, hTop, hCached₁⟩ := find_top_loop_spec h hSize (cached_start arr) le_rfl (by omega)
    (by omega) (by omega) hRounds
  obtain ⟨r, q₂, hUp, hCached₂, hFinds⟩ := find_loop_spec target h hSize (ordered_above h)
    hCached₁ le_rfl le_rfl le_rfl (by omega) hRounds' fun i hi hi' _ => ⟨hi, hi'⟩
  rw [findInMountainArray, hInt, if_neg (by omega), Int.toNat_natCast]
  dsimp only
  rw [hTop]
  rw [Option.bind_eq_bind, Option.bind_some, findInMountainArrayInc_loop, hUp,
    Option.bind_some]
  dsimp only
  rcases hFinds with ⟨rfl, hNone⟩ | ⟨i, rfl, -, hi, hTarget⟩
  · obtain ⟨r', q₃, hDown, hCached₃, hFinds'⟩ := find_loop_spec target h hSize (ordered_below h)
      hCached₂ (by omega) le_rfl le_rfl (by omega) hRounds'' fun i hi hi' _ => ⟨hi, hi'⟩
    rw [if_pos (by decide)]
    have hFirst := findsFirst_down h (fun i hi => hNone i (by omega) (by omega)) hFinds'
    exact ⟨r', q₃, hDown, hFirst, hCached₃.nodup, hCached₃.entry⟩
  · rw [if_neg (by omega)]
    exact ⟨i, q₂, rfl, findsFirst_up h (by omega) hTarget, hCached₂.nodup, hCached₂.entry⟩

section Overflow

variable {n : Nat}

/-- The values rise by 1, and the last one is the one before the peak's again. -/
def ramp (n : Nat) : List Int := (List.range n).map Nat.cast ++ [(n : Int) - 2]

theorem getElem?_ramp {i : Nat} (hv : (ramp n)[i]? = some v) :
    (i < n ∧ v = i) ∨ (i = n ∧ v = n - 2) := by
  rw [ramp, List.getElem?_append] at hv
  split_ifs at hv with hFront
  · rw [List.length_map, List.length_range] at hFront
    rw [List.getElem?_map, List.getElem?_range hFront] at hv
    exact Or.inl ⟨hFront, (Option.some.inj hv).symm⟩
  · rw [List.length_map, List.length_range] at hFront hv
    obtain ⟨hBound, rfl⟩ := List.getElem?_eq_some_iff.mp hv
    rw [List.length_singleton] at hBound
    exact Or.inr ⟨by omega, List.getElem_singleton _⟩

theorem length_ramp (n : Nat) : (ramp n).length = n + 1 := by
  rw [ramp, List.length_append, List.length_map, List.length_range, List.length_singleton]

theorem isMountain_ramp (hn : 2 ≤ n) : IsMountain (ramp n) (n - 1) where
  peak := by
    rw [length_ramp]
    omega
  nonneg := by
    intro v hv
    obtain ⟨i, hi⟩ := List.mem_iff_getElem?.mp hv
    have hCases := getElem?_ramp hi
    omega
  increasing := by
    intro i j v w hLt hj hv hw
    have hCases := getElem?_ramp hv
    have hCases' := getElem?_ramp hw
    omega
  decreasing := by
    intro i j v w hi hLt hv hw
    have hCases := getElem?_ramp hv
    have hCases' := getElem?_ramp hw
    omega

/-- In an array of `2 ^ 31 - 1` elements with its peak in the second half, the second sum of two
positions exceeds the numbers of type `int`. -/
theorem find_top_loop_overflow (h : IsMountain arr p) (hLength : arr.length = 2 ^ 31 - 1)
    (hp : 2 ^ 30 ≤ p) (hCached : Cached arr q) (rounds : Nat) :
    find_top_loop arr rounds 0 (arr.length - 1) q = none := by
  have hMid : (int (0 + (arr.length - 1))).tdiv 2 = ((2 ^ 30 - 1 : Nat) : Int) := by
    rw [hLength]
    decide
  have hMid' : (int (((2 ^ 30 : Nat) : Int) + (arr.length - 1))).tdiv 2 = -2 ^ 29 - 1 := by
    rw [hLength]
    decide
  obtain ⟨v, hv, hNonneg⟩ := exists_value h (k := 2 ^ 30 - 1) (by omega)
  obtain ⟨w, hw, hNonneg'⟩ := exists_value h (k := 2 ^ 30) (by omega)
  obtain ⟨q₁, hQuery, hCached₁, hAsked, -⟩ := query_spec hCached hv hNonneg
  obtain ⟨q₂, hQuery', hCached₂, hAsked', hSub⟩ := query_spec hCached₁ hw hNonneg'
  have hNext : ((2 ^ 30 - 1 : Nat) : Int) + 1 = ((2 ^ 30 : Nat) : Int) := by decide
  have hInc := h.increasing (2 ^ 30 - 1) (2 ^ 30) v w (by omega) hp hv hw
  cases rounds with
  | zero => rfl
  | succ rounds =>
      rw [find_top_loop, if_pos (by omega)]
      simp only [hMid, hNext, hQuery, hQuery', hCached₂.getAt_eq hv (hSub hAsked),
        hCached₂.getAt_eq hw hAsked', Option.bind_eq_bind, Option.bind_some]
      rw [if_pos hInc, if_neg (by omega)]
      cases rounds with
      | zero => rfl
      | succ rounds =>
          rw [find_top_loop, if_pos (by omega)]
          simp only [hMid', query, getAt, Option.bind_eq_bind]
          rfl

end Overflow

theorem findInMountainArray_spec_both : ∃ r q,
    findInMountainArray (ramp 5) 3 = some (r, q) ∧ FindsFirst (ramp 5) 3 r := by
  obtain ⟨r, q, hRun, hFinds, -⟩ :=
    findInMountainArray_spec (ramp 5) 3 4 (isMountain_ramp (by decide)) (by decide) (by decide)
  exact ⟨r, q, hRun, hFinds⟩

/-- The array of `2 ^ 31 - 1` elements needs more than an `int` in the second round. -/
theorem not_findInMountainArray_spec : ¬∀ (arr : List Int) (target : Int) (p : Nat),
    IsMountain arr p → 3 ≤ arr.length →
      ∃ r q, findInMountainArray arr target = some (r, q) ∧ FindsFirst arr target r := by
  intro hAll
  have hLength : (ramp (2 ^ 31 - 2)).length = 2 ^ 31 - 1 := length_ramp _
  have hMountain : IsMountain (ramp (2 ^ 31 - 2)) (2 ^ 31 - 3) := isMountain_ramp (by decide)
  obtain ⟨r, q, hRun, -⟩ := hAll (ramp (2 ^ 31 - 2)) 0 _ hMountain (by omega)
  have hInt : int (ramp (2 ^ 31 - 2)).length = (ramp (2 ^ 31 - 2)).length :=
    Int.bmod_eq_of_le (by omega) (by omega)
  rw [findInMountainArray, hInt, if_neg (by omega), Int.toNat_natCast] at hRun
  dsimp only at hRun
  rw [find_top_loop_overflow hMountain hLength (by decide) (cached_start _)] at hRun
  cases hRun

end CppPerf.Arrays.MountainArray
