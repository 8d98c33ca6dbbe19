import CppPerf.HashTable.Basic
import CppPerf.Semantics.Run
import CppPerf.Semantics.SetHistory
import CppPerf.Semantics.Vec

/-! The table of `HashTableBucketHashing.h`: home buckets of seven slots and a
shared overflow area behind them. Erased slots keep their data. `size_t` is
64 bits wide; the hash kept in a slot is its low half. -/
namespace CppPerf.HashTable

open Indexed

structure BucketElement (α : Type*) where
  hash : UInt32 := 0
  pData : Option α := none
  bErased : Bool := false

namespace BucketElement

variable {α : Type*}

/-- The slot holds data that is not flagged as erased. -/
def live (e : BucketElement α) : Bool := e.pData.isSome && !e.bErased

end BucketElement

structure HashTableBucket (α : Type*) where
  pElements : Vec (BucketElement α) := Vec.empty {}
  overflow : Nat := 0
  buckets : Nat := 0
  iEntries : UInt32 := 0
  iCollisions : UInt32 := 0
  iMaxDepth : UInt32 := 0
  iCounts : Vec UInt32 := ⟨20, fun _ => 0⟩
  iNewItems : UInt32 := 0
  iErased : UInt32 := 0
  iReusedCount : UInt32 := 0
  iInsertErrors : UInt32 := 0

namespace HashTableBucket

def bucketSize : Nat := 7
def overflowSize : Nat := 300

variable {α : Type*}

def resetStats (t : HashTableBucket α) : HashTableBucket α :=
  { t with
    iInsertErrors := 0, iEntries := 0, iCollisions := 0, iMaxDepth := 0, iNewItems := 0,
    iErased := 0, iReusedCount := 0, iCounts := ⟨20, fun _ => 0⟩ }

def hashInitialize (t : HashTableBucket α) (iDesiredSize : Nat) : HashTableBucket α :=
  let t := t.resetStats
  let buckets := calcSize iDesiredSize
  let overflow := buckets * bucketSize
  { t with
    buckets := buckets
    overflow := overflow
    pElements := if t.pElements.size < overflow + overflowSize then
        t.pElements.resize (overflow + overflowSize) {}
      else t.pElements }

def removeElement (t : HashTableBucket α) (slot : Nat) : HashTableBucket α :=
  let e := t.pElements.get slot
  if !e.bErased then
    { t with
      pElements := t.pElements.set slot { e with bErased := true }
      iErased := t.iErased + 1
      iEntries := t.iEntries - 1 }
  else t

def size (t : HashTableBucket α) : Nat := t.iEntries.toNat

variable [BEq α]

/-- The loop of `findSlot` with `left` slots still to visit. `mySlot` is the
first erased slot seen so far, and `none` stands for `UINT32_MAX`. -/
def findSlotLoop (t : HashTableBucket α) (pData : α) (hashVal : UInt32) :
    (left slot : Nat) → (mySlot : Option Nat) → Option Nat
  | 0, _, mySlot => mySlot
  | left + 1, slot, mySlot =>
      let e := t.pElements.get slot
      match e.pData with
      | none => some slot
      | some data =>
          let mySlot := if e.bErased && mySlot.isNone then some slot else mySlot
          if e.hash == hashVal && data == pData then some slot
          else findSlotLoop t pData hashVal left (slot + 1) mySlot

def findSlot (t : HashTableBucket α) (pData : α) (home : Nat) (hashVal : UInt32) : Option Nat :=
  t.findSlotLoop pData hashVal bucketSize home none

variable [Hashable α]

/-- `hashVal % buckets * bucket_size` -/
def home (t : HashTableBucket α) (pData : α) : Nat :=
  (hash pData).toNat % t.buckets * bucketSize

/-- The two calls of `findSlot` that `find`, `erase` and `insert` start with:
the home bucket first, and the overflow area if that returned `UINT_MAX`. -/
def locate (t : HashTableBucket α) (pData : α) : Option Nat :=
  let hashVal := (hash pData).toUInt32
  match t.findSlot pData (t.home pData) hashVal with
  | some slot => some slot
  | none => t.findSlot pData t.overflow hashVal

/-- The position of the iterator returned by `find`; `none` is `end()`. -/
def find (t : HashTableBucket α) (pData : α) : Option Nat :=
  if t.pElements.size = 0 then none
  else
    match t.locate pData with
    | none => none
    | some slot =>
        let e := t.pElements.get slot
        if e.bErased || e.pData.isNone then none else some slot

def erase (t : HashTableBucket α) (pData : α) : HashTableBucket α × Nat :=
  if t.pElements.size = 0 ∨ t.size < 1 then (t, 0)
  else
    match t.locate pData with
    | none => (t, 0)
    | some slot =>
        let e := t.pElements.get slot
        if e.bErased || e.pData.isNone then (t, 0) else (t.removeElement slot, 1)

/-- `insert(const HASH_DATA&)`. The pair of the source is the last component:
iterator position (`none` is `end()`) and whether a new item was created. -/
def insert (t : HashTableBucket α) (pData : α) : HashTableBucket α × Option Nat × Bool :=
  let hashVal := (hash pData).toUInt32
  let home := t.home pData
  match t.locate pData with
  | none => (t, none, false)
  | some slot =>
      let iDepth := if (t.findSlot pData home hashVal).isNone then bucketSize else slot - home
      let t := { t with
        iCollisions := if slot ≠ home then t.iCollisions + 1 else t.iCollisions }
      let e := { t.pElements.get slot with hash := hashVal }
      match e.pData with
      | none =>
          ({ t with
              pElements := t.pElements.set slot { e with pData := some pData, bErased := false }
              iEntries := t.iEntries + 1
              iNewItems := t.iNewItems + 1
              iMaxDepth := if t.iMaxDepth.toNat < iDepth then UInt32.ofNat iDepth
                else t.iMaxDepth
              iCounts := if iDepth < t.iCounts.size then
                  t.iCounts.set iDepth (t.iCounts.get iDepth + 1)
                else t.iCounts },
            some slot, true)
      | some _ =>
          let reused := e.bErased
          ({ t with
              pElements := t.pElements.set slot { e with pData := some pData, bErased := false }
              iEntries := if reused then t.iEntries + 1 else t.iEntries
              iErased := if reused then t.iErased - 1 else t.iErased
              iReusedCount := if reused then t.iReusedCount + 1 else t.iReusedCount },
            some slot, false)

open SetHistory Transition in
/-- A client call, with the history of the insertions that returned a
position and of the erasures that returned one. The runs considered are
those in which no insertion returned `end()`. -/
def step : Step (HashTableBucket α × List (Event α)) (Call α)
  | (t, past), .insert x =>
      match t.insert x with
      | (t', some _, _) => some (t', .inserted x :: past)
      | (_, none, _) => none
  | (t, past), .erase x =>
      match t.erase x with
      | (t', n) => some (t', if n = 1 then .erased x :: past else past)
  | (t, past), .find _ => some (t, past)

end HashTableBucket
end CppPerf.HashTable

/-! What a lookup of the bucket table returns, from any state whose slots are
filled in order. Stale data of erased slots takes part in every lookup. -/
namespace CppPerf.HashTable.HashTableBucket

variable {α : Type*}

def Live (t : HashTableBucket α) (s : Nat) (d : α) : Prop :=
  (t.pElements.get s).pData = some d ∧ (t.pElements.get s).bErased = false

theorem live_iff_exists (t : HashTableBucket α) (s : Nat) :
    (t.pElements.get s).live = true ↔ ∃ d, t.Live s d := by
  cases hData : (t.pElements.get s).pData <;> simp [BucketElement.live, Live, hData]

/-- The slots of the area that starts at `base`. -/
def InArea (base s : Nat) : Prop := base ≤ s ∧ s < base + bucketSize

theorem div_eq_of_inArea {base s s' : Nat} (hBase : base % bucketSize = 0) (hIn : InArea base s)
    (hIn' : InArea base s') : s / bucketSize = s' / bucketSize := by
  simp only [bucketSize, InArea] at *
  omega

theorem inArea_of_div_eq {base s s' : Nat} (hBase : base % bucketSize = 0) (hIn : InArea base s)
    (hDiv : s / bucketSize = s' / bucketSize) : InArea base s' := by
  simp only [bucketSize, InArea] at *
  omega

variable [Hashable α]

theorem home_mod (t : HashTableBucket α) (x : α) : t.home x % bucketSize = 0 := by
  simp [home]

variable [BEq α]

/-- Equal keys have the same home bucket. -/
theorem home_congr [LawfulHashable α] (t : HashTableBucket α) {x y : α} (hxy : x == y) :
    t.home x = t.home y := by
  rw [home, home, LawfulHashable.hash_eq x y hxy]

/-- Shape of a table after any history. Home buckets and the overflow area are
filled in order, and no two slots of one area hold equal data, erased or not. -/
structure WellFormed (t : HashTableBucket α) : Prop where
  buckets_pos : 0 < t.buckets
  buckets_le : t.buckets ≤ 8000009
  overflow_eq : t.overflow = t.buckets * bucketSize
  size_eq : t.pElements.size = t.overflow + overflowSize
  hash_eq : ∀ s d, (t.pElements.get s).pData = some d →
    (t.pElements.get s).hash = (hash d).toUInt32
  home_eq : ∀ s d, s < t.overflow → (t.pElements.get s).pData = some d → InArea (t.home d) s
  beyond : ∀ s, t.overflow + bucketSize ≤ s → (t.pElements.get s).pData = none
  packed : ∀ s s', s' / bucketSize = s / bucketSize → s' < s →
    (t.pElements.get s').pData = none → (t.pElements.get s).pData = none
  distinct : ∀ s s' d d', s / bucketSize = s' / bucketSize →
    (t.pElements.get s).pData = some d → (t.pElements.get s').pData = some d' →
    d == d' → s = s'

/-- What `findSlot` says about the slot it returns for an area. -/
structure Pick (t : HashTableBucket α) (x : α) (base s : Nat) : Prop where
  inArea : InArea base s
  before : ∀ s', base ≤ s' → s' < s → (t.pElements.get s').pData ≠ none
  others : ∀ s' d, InArea base s' → s' ≠ s → (t.pElements.get s').pData = some d →
    (d == x) = false
  reusable : (∃ d, (t.pElements.get s).pData = some d ∧ d == x) ∨ (t.pElements.get s).live = false

/-- What `UINT_MAX` says about an area: every slot is live with another key. -/
def FullWithout (t : HashTableBucket α) (x : α) (base : Nat) : Prop :=
  ∀ s, InArea base s → ∃ d, t.Live s d ∧ (d == x) = false

/-- Loop invariant of `findSlot`: the slots already visited hold other keys,
and `mySlot` is one of the erased ones, or there is none. -/
structure Visited (t : HashTableBucket α) (x : α) (base slot : Nat)
    (mySlot : Option Nat) : Prop where
  others : ∀ s, base ≤ s → s < slot → ∃ d, (t.pElements.get s).pData = some d ∧ (d == x) = false
  mine : ∀ m, mySlot = some m → InArea base m ∧ m < slot ∧ (t.pElements.get m).bErased = true
  none_erased : mySlot = none → ∀ s, base ≤ s → s < slot → (t.pElements.get s).bErased = false

namespace Visited

variable {t : HashTableBucket α} {x : α} {base slot : Nat} {mySlot : Option Nat}

section
omit [Hashable α]

theorem start (t : HashTableBucket α) (x : α) (base : Nat) :
    Visited t x base base none where
  others s hLo hHi := by omega
  mine m hm := by cases hm
  none_erased _ s hLo hHi := by omega

theorem ne_none (hv : Visited t x base slot mySlot) {s : Nat} (hLo : base ≤ s)
    (hHi : s < slot) : (t.pElements.get s).pData ≠ none := by
  obtain ⟨d, hData, _⟩ := hv.others s hLo hHi
  simp [hData]

theorem ne_key (hv : Visited t x base slot mySlot) {s : Nat} {d : α} (hLo : base ≤ s)
    (hHi : s < slot) (hData : (t.pElements.get s).pData = some d) : (d == x) = false := by
  obtain ⟨d', hData', hNe⟩ := hv.others s hLo hHi
  rw [hData] at hData'
  rwa [Option.some.inj hData']

/-- The whole area is visited, and none of its slots is erased. -/
theorem fullWithout (hv : Visited t x base (base + bucketSize) none) : t.FullWithout x base := by
  intro s hIn
  obtain ⟨d, hData, hNe⟩ := hv.others s hIn.1 hIn.2
  exact ⟨d, ⟨hData, hv.none_erased rfl s hIn.1 hIn.2⟩, hNe⟩

/-- The whole area is visited, and `m` is erased. -/
theorem pick_erased {m : Nat} (hv : Visited t x base (base + bucketSize) (some m)) :
    t.Pick x base m := by
  obtain ⟨hIn, hm, hErased⟩ := hv.mine m rfl
  refine ⟨hIn, ?_, ?_, Or.inr (by simp [BucketElement.live, hErased])⟩
  · intro s' hLo hHi
    exact hv.ne_none hLo (by omega)
  · intro s' d hIn' _ hData
    exact hv.ne_key hIn'.1 hIn'.2 hData

/-- The loop steps past a slot with another key, and keeps the first erased
slot that it has seen. -/
theorem next (hv : Visited t x base slot mySlot) (hIn : InArea base slot) {data : α}
    (hData : (t.pElements.get slot).pData = some data) (hNe : (data == x) = false) :
    Visited t x base (slot + 1)
      (if (t.pElements.get slot).bErased && mySlot.isNone then some slot else mySlot) where
  others s hLo hHi := by
    rcases Nat.lt_or_ge s slot with hlt | hge
    · exact hv.others s hLo hlt
    · obtain rfl : s = slot := by omega
      exact ⟨data, hData, hNe⟩
  mine m hm := by
    split_ifs at hm with hErased
    · obtain rfl := Option.some.inj hm
      exact ⟨hIn, by omega, by simp_all⟩
    · obtain ⟨hIn', hlt, hErased⟩ := hv.mine m hm
      exact ⟨hIn', by omega, hErased⟩
  none_erased hm s hLo hHi := by
    split_ifs at hm with hErased
    rcases Nat.lt_or_ge s slot with hlt | hge
    · exact hv.none_erased hm s hLo hlt
    · obtain rfl : s = slot := by omega
      simpa [hm] using hErased

end

/-- The area is filled in order, so nothing lies behind an empty slot. -/
theorem pick_empty (hv : Visited t x base slot mySlot) (hw : t.WellFormed)
    (hBase : base % bucketSize = 0) (hIn : InArea base slot)
    (hData : (t.pElements.get slot).pData = none) : t.Pick x base slot where
  inArea := hIn
  before s' hLo hHi := hv.ne_none hLo hHi
  reusable := Or.inr (by simp [BucketElement.live, hData])
  others s' d hIn' hne hData' := by
    rcases Nat.lt_or_gt_of_ne hne with hlt | hgt
    · exact hv.ne_key hIn'.1 hlt hData'
    · rw [hw.packed s' slot (div_eq_of_inArea hBase hIn hIn') hgt hData] at hData'
      cases hData'

/-- No other slot of the area holds the data that matched. -/
theorem pick_match [EquivBEq α] (hv : Visited t x base slot mySlot) (hw : t.WellFormed)
    (hBase : base % bucketSize = 0) (hIn : InArea base slot) {data : α}
    (hData : (t.pElements.get slot).pData = some data) (hKey : data == x) :
    t.Pick x base slot where
  inArea := hIn
  before s' hLo hHi := hv.ne_none hLo hHi
  reusable := Or.inl ⟨data, hData, hKey⟩
  others s' d hIn' hne hData' := by
    by_contra hMatch
    have hArea := div_eq_of_inArea hBase hIn' hIn
    have hSame : d == data := by
      rw [BEq.congr_right hKey]
      simpa using hMatch
    exact hne (hw.distinct s' slot d data hArea hData' hData hSame)

end Visited

namespace WellFormed

theorem overflow_mod {t : HashTableBucket α} (hw : t.WellFormed) :
    t.overflow % bucketSize = 0 := by
  simp [hw.overflow_eq]

theorem home_lt {t : HashTableBucket α} (hw : t.WellFormed) (x : α) :
    t.home x + bucketSize ≤ t.overflow := by
  have hMod : (hash x).toNat % t.buckets < t.buckets := Nat.mod_lt _ hw.buckets_pos
  have hSucc : ((hash x).toNat % t.buckets + 1) * bucketSize ≤ t.buckets * bucketSize :=
    Nat.mul_le_mul_right _ hMod
  rw [hw.overflow_eq, home]
  simpa [Nat.add_mul] using hSucc

/-- Every slot that a lookup touches lies inside the vector. -/
theorem slot_lt_size {t : HashTableBucket α} (hw : t.WellFormed) {base s : Nat}
    (hBase : base ≤ t.overflow) (hIn : InArea base s) : s < t.pElements.size := by
  rw [hw.size_eq]
  simp only [InArea, bucketSize, overflowSize] at *
  omega

variable [LawfulHashable α]

/-- The test of the loop compares the kept hashes first; it comes to equality
of the data. -/
theorem match_iff {t : HashTableBucket α} (hw : t.WellFormed) {s : Nat} {d : α} (x : α)
    (hData : (t.pElements.get s).pData = some d) :
    ((t.pElements.get s).hash == (hash x).toUInt32 && d == x) = (d == x) := by
  cases hEq : d == x with
  | false => simp
  | true => simp [hw.hash_eq s d hData, LawfulHashable.hash_eq d x hEq]

variable [EquivBEq α]

private theorem findSlotLoop_spec {t : HashTableBucket α} (hw : t.WellFormed) (x : α)
    {base : Nat} (hBase : base % bucketSize = 0) (left slot : Nat) (mySlot : Option Nat)
    (hLow : base ≤ slot) (hHigh : slot + left = base + bucketSize)
    (hv : Visited t x base slot mySlot) :
    match t.findSlotLoop x (hash x).toUInt32 left slot mySlot with
    | some s => t.Pick x base s
    | none => t.FullWithout x base := by
  induction left generalizing slot mySlot with
  | zero =>
      obtain rfl : slot = base + bucketSize := hHigh
      cases mySlot with
      | none => exact hv.fullWithout
      | some m => exact hv.pick_erased
  | succ left ih =>
      have hIn : InArea base slot := ⟨hLow, by omega⟩
      cases hData : (t.pElements.get slot).pData with
      | none =>
          simp only [findSlotLoop, hData]
          exact hv.pick_empty hw hBase hIn hData
      | some data =>
          simp only [findSlotLoop, hData, hw.match_iff x hData]
          cases hKey : data == x with
          | true =>
              simp only [↓reduceIte]
              exact hv.pick_match hw hBase hIn hData hKey
          | false =>
              simp only [Bool.false_eq_true, ↓reduceIte]
              exact ih (slot + 1) _ (by omega) (by omega) (hv.next hIn hData hKey)

private theorem findSlot_spec {t : HashTableBucket α} (hw : t.WellFormed) (x : α) {base : Nat}
    (hBase : base % bucketSize = 0) :
    match t.findSlot x base (hash x).toUInt32 with
    | some s => t.Pick x base s
    | none => t.FullWithout x base := by
  exact hw.findSlotLoop_spec x hBase bucketSize base none (Nat.le_refl _) rfl
    (Visited.start t x base)

theorem findSlot_some {t : HashTableBucket α} (hw : t.WellFormed) {x : α} {base s : Nat}
    (hBase : base % bucketSize = 0) (h : t.findSlot x base (hash x).toUInt32 = some s) :
    t.Pick x base s := by
  have hSpec := hw.findSlot_spec x hBase
  rwa [h] at hSpec

theorem findSlot_none {t : HashTableBucket α} (hw : t.WellFormed) {x : α} {base : Nat}
    (hBase : base % bucketSize = 0) (h : t.findSlot x base (hash x).toUInt32 = none) :
    t.FullWithout x base := by
  have hSpec := hw.findSlot_spec x hBase
  rwa [h] at hSpec

/-- A lookup that returns a slot ends in the home bucket, or in the overflow
area behind a home bucket that is full of other live keys. -/
theorem locate_some {t : HashTableBucket α} (hw : t.WellFormed) {x : α} {s : Nat}
    (h : t.locate x = some s) :
    t.Pick x (t.home x) s ∨ (t.FullWithout x (t.home x) ∧ t.Pick x t.overflow s) := by
  unfold locate at h
  cases hFirst : t.findSlot x (t.home x) (hash x).toUInt32 with
  | some first =>
      simp only [hFirst, Option.some.injEq] at h
      subst first
      exact Or.inl (hw.findSlot_some (t.home_mod x) hFirst)
  | none =>
      simp only [hFirst] at h
      exact Or.inr ⟨hw.findSlot_none (t.home_mod x) hFirst, hw.findSlot_some hw.overflow_mod h⟩

theorem locate_none {t : HashTableBucket α} (hw : t.WellFormed) {x : α}
    (h : t.locate x = none) : t.FullWithout x (t.home x) ∧ t.FullWithout x t.overflow := by
  unfold locate at h
  cases hFirst : t.findSlot x (t.home x) (hash x).toUInt32 with
  | some first => simp [hFirst] at h
  | none =>
      simp only [hFirst] at h
      exact ⟨hw.findSlot_none (t.home_mod x) hFirst, hw.findSlot_none hw.overflow_mod h⟩

end WellFormed
end CppPerf.HashTable.HashTableBucket
