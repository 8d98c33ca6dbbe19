import CppPerf.Semantics.Positional
import Mathlib.Data.Bool.AllAny
import Mathlib.Data.Int.ModEq
import Mathlib.Data.List.Iterate

/-! The longest repeated substring of `sliding_window.cpp`. A string is a list of characters,
and reading one past its end fails, as does reading an array past its end. A product of two
numbers below `MOD` fits into a `long long`. -/
namespace CppPerf.Strings.LongestDupSubStr

def MOD : Int := 1000000007

def max_size : Nat := 100001

def pow31 : List Int := List.iterate (fun hash => (hash * 31).tmod MOD) 1 max_size

/-- The entries that the first loop writes. The entry in front of them is 0 in every call. -/
def poly_sum (S : List Char) : List Int :=
  S.scanl (fun hash c => (hash * 31 + c.toNat - 'a'.toNat).tmod MOD) 0

/-- The characters from `left` to `right` of the string. -/
structure string_window_view where
  left : Nat
  right : Nat
  hash_val : Int

def window (poly_sum : List Int) (l r : Nat) : Option string_window_view := do
  let whole ← poly_sum[r + 1]?
  let front ← poly_sum[l]?
  let pow ← pow31[r - l + 1]?
  return ⟨l, r, (whole - (front * pow).tmod MOD + MOD).tmod MOD⟩

/-- The loop over the next `n` characters from `i` and from `j` on. -/
def data_equal (data : List Char) : (n i j : Nat) → Option Bool
  | 0, _, _ => some true
  | n + 1, i, j => do
      let a ← data[i]?
      let b ← data[j]?
      if a ≠ b then return false
      data_equal data n (i + 1) (j + 1)

/-- `operator==` -/
def equal (data : List Char) (lhs rhs : string_window_view) : Option Bool :=
  if lhs.hash_val ≠ rhs.hash_val then some false
  else data_equal data (lhs.right + 1 - lhs.left) lhs.left rhs.left

/-- The loop over the `n` windows of `L` characters from the one up to `right` on. -/
def helper_loop (s : List Char) (poly_sum : List Int) (L : Nat) :
    (n right : Nat) → List string_window_view → Option Int
  | 0, _, _ => some (-1)
  | n + 1, right, substr_hash => do
      let wv ← window poly_sum (right + 1 - L) right
      if ← substr_hash.anyM (equal s · wv) then return right
      helper_loop s poly_sum L n (right + 1) (wv :: substr_hash)

def longestDupSubstring_helper (s : List Char) (poly_sum : List Int) (L : Nat) : Option Int :=
  if L = 0 then some (-1)
  else helper_loop s poly_sum L (s.length + 1 - L) (L - 1) []

/-- The length and the end of the repeated substring that is found. There are fewer rounds
than characters. -/
def search (S : List Char) (poly_sum : List Int) :
    (rounds : Nat) → (low hi dup_pos : Int) → Option (Int × Int)
  | 0, _, _, _ => none
  | rounds + 1, low, hi, dup_pos =>
      if low < hi then do
        let mid := (low + hi).tdiv 2
        let mid := if mid = low then low + 1 else mid
        let dup ← longestDupSubstring_helper S poly_sum mid.toNat
        if dup < 0 then search S poly_sum rounds low (mid - 1) dup_pos
        else search S poly_sum rounds mid hi dup
      else some (low, dup_pos)

def longestDupSubstring (S : List Char) : Option (List Char) := do
  let (low, dup_pos) ← search S (poly_sum S) (S.length + 1) 0 (S.length - 1) (-1)
  if dup_pos < 0 then return []
  let pos := (dup_pos - low + 1).toNat
  if pos ≤ S.length then some ((S.drop pos).take low.toNat) else none

/-! The substring that is found occurs twice, and no longer one does. -/

open Positional

variable {S v w : List Char} {i j l r n L m : Nat}

def IsLower (c : Char) : Prop := 'a' ≤ c ∧ c ≤ 'z'

def Occurs (S w : List Char) (i : Nat) : Prop := i ≤ S.length ∧ w <+: S.drop i

/-- The substring occurs at two positions. -/
def Repeats (S w : List Char) : Prop := ∃ i j, i ≠ j ∧ Occurs S w i ∧ Occurs S w j

/-- The `n` characters from a position on. -/
def piece (S : List Char) (i n : Nat) : List Char := (S.drop i).take n

section Hash

def code (c : Char) : Int := c.toNat - 'a'.toNat

theorem code_nonneg {c : Char} (h : IsLower c) : 0 ≤ code c := by
  have hLe : 'a'.toNat ≤ c.toNat := h.1
  rw [code]
  omega

/-- The polynomial of a string, its last character being the lowest digit. -/
def poly (w : List Char) : Int := value 31 (w.map code).reverse

theorem poly_append (v w : List Char) : poly (v ++ w) = poly w + 31 ^ w.length * poly v := by
  rw [poly, List.map_append, List.reverse_append, value_append, List.length_reverse,
    List.length_map, poly, poly]

theorem poly_concat (w : List Char) (c : Char) : poly (w ++ [c]) = poly w * 31 + code c := by
  rw [poly_append, List.length_singleton, pow_one, poly, List.map_singleton,
    List.reverse_singleton, value_cons, value_nil]
  ring

/-- One step of the first loop. -/
def extend (hash : Int) (c : Char) : Int := (hash * 31 + c.toNat - 'a'.toNat).tmod MOD

theorem foldl_extend (h : ∀ c ∈ w, IsLower c) : w.foldl extend 0 = poly w % MOD := by
  induction w using List.reverseRecOn with
  | nil => rfl
  | append_singleton w c ih =>
      rw [List.forall_mem_append, List.forall_mem_singleton] at h
      have hCode := code_nonneg h.2
      have hMod : 0 ≤ poly w % MOD := Int.emod_nonneg _ (by decide)
      rw [List.foldl_append, ih h.1, List.foldl_cons, List.foldl_nil, extend, Int.add_sub_assoc,
        ← code, Int.tmod_eq_emod_of_nonneg (by omega), poly_concat]
      exact ((Int.mod_modEq _ _).mul_right 31).add_right _

theorem getElem?_poly_sum (h : ∀ c ∈ S, IsLower c) (hi : i ≤ S.length) :
    (poly_sum S)[i]? = some (poly (S.take i) % MOD) := by
  rw [poly_sum, List.getElem?_scanl, if_pos hi]
  exact congrArg some (foldl_extend fun c hc => h c (List.mem_of_mem_take hc))

theorem getElem?_pow31 (hi : i < max_size) : pow31[i]? = some (31 ^ i % MOD) := by
  rw [pow31, List.getElem?_iterate _ _ _ _ hi, Option.some.injEq]
  clear hi
  induction i with
  | zero => rfl
  | succ i ih =>
      have hMod : 0 ≤ 31 ^ i % MOD := Int.emod_nonneg _ (by decide)
      rw [Function.iterate_succ_apply', ih, Int.tmod_eq_emod_of_nonneg (by omega), pow_succ]
      exact (Int.mod_modEq _ _).mul_right 31

/-- The view of `n` characters, whose hash is a function of what they are. -/
def view (S : List Char) (i n : Nat) : string_window_view :=
  ⟨i, i + n - 1, poly (piece S i n) % MOD⟩

theorem window_eq (h : ∀ c ∈ S, IsLower c) (hMax : S.length < max_size) (hn : 0 < n)
    (hBound : i + n ≤ S.length) : window (poly_sum S) i (i + n - 1) = some (view S i n) := by
  have hEnd : i + n - 1 + 1 = i + n := by omega
  have hLength : i + n - 1 - i + 1 = n := by omega
  rw [window, hEnd, hLength, getElem?_poly_sum h hBound, getElem?_poly_sum h (by omega),
    getElem?_pow31 (by omega)]
  have hTake : S.take (i + n) = S.take i ++ piece S i n := List.take_add
  have hPiece : (piece S i n).length = n := by
    rw [piece, List.length_take, List.length_drop]
    omega
  have hWhole : 0 ≤ poly (S.take (i + n)) % MOD := Int.emod_nonneg _ (by decide)
  have hFront : 0 ≤ poly (S.take i) % MOD * (31 ^ n % MOD) :=
    Int.mul_nonneg (Int.emod_nonneg _ (by decide)) (Int.emod_nonneg _ (by decide))
  have hLt : (poly (S.take i) % MOD * (31 ^ n % MOD)) % MOD < MOD :=
    Int.emod_lt_of_pos _ (by decide)
  simp only [Option.bind_eq_bind, Option.bind_some, view, Option.pure_def]
  rw [Int.tmod_eq_emod_of_nonneg hFront, Int.tmod_eq_emod_of_nonneg (by omega), hTake, poly_append,
    hPiece]
  congr 2
  rw [Int.add_emod_right]
  calc ((poly (piece S i n) + 31 ^ n * poly (S.take i)) % MOD -
        poly (S.take i) % MOD * (31 ^ n % MOD) % MOD) % MOD
      = (poly (piece S i n) + 31 ^ n * poly (S.take i) - poly (S.take i) * 31 ^ n) % MOD := by
        rw [← Int.mul_emod, ← Int.sub_emod]
    _ = poly (piece S i n) % MOD := by
        congr 1
        ring

end Hash

theorem data_equal_eq (hi : i + n ≤ S.length) (hj : j + n ≤ S.length) :
    data_equal S n i j = some (decide (piece S i n = piece S j n)) := by
  induction n generalizing i j with
  | zero => simp [data_equal, piece]
  | succ n ih =>
      have hPiece : ∀ k (hk : k < S.length), piece S k (n + 1) = S[k] :: piece S (k + 1) n := by
        intro k hk
        rw [piece, List.drop_eq_getElem_cons hk, List.take_succ_cons, piece]
      rw [data_equal, ih (by omega) (by omega), hPiece i (by omega), hPiece j (by omega),
        List.getElem?_eq_getElem (by omega), List.getElem?_eq_getElem (by omega)]
      simp only [Option.bind_eq_bind, Option.bind_some]
      split_ifs with hNe
      · simp [hNe]
      · simp [not_ne_iff.mp hNe]

/-- Views of one length are equal if and only if what they show is. -/
theorem equal_view (hn : 0 < n) (hi : i + n ≤ S.length) (hj : j + n ≤ S.length) :
    equal S (view S i n) (view S j n) = some (decide (piece S i n = piece S j n)) := by
  have hLength : i + n - 1 + 1 - i = n := by omega
  rw [equal, view, view, hLength, data_equal_eq hi hj]
  split_ifs with hHash
  · rw [decide_eq_false fun hEq => hHash (by rw [hEq])]
  · rfl

section Helper

/-- Two of the pieces of a length are the same, the second being at `m` or later. -/
structure Found (S : List Char) (n i j : Nat) : Prop where
  lt : i < j
  bound : j + n ≤ S.length
  same : piece S i n = piece S j n

/-- What the search for windows of a length from `m` on returns. -/
def Reports (S : List Char) (n m : Nat) (r : Int) : Prop :=
  (r = -1 ∧ ∀ i j, m ≤ j → ¬Found S n i j) ∨ ∃ i j, Found S n i j ∧ r = j + n - 1

/-- The windows that start before `m`, the last one first. -/
def views (S : List Char) (n m : Nat) : List string_window_view :=
  (List.range m).reverse.map (view S · n)

theorem anyM_map_some {α β : Type} {f : β → α} {p : α → Option Bool} {q : β → Bool} {l : List β}
    (h : ∀ b ∈ l, p (f b) = some (q b)) : (l.map f).anyM p = some (l.any q) := by
  induction l with
  | nil => rfl
  | cons b l ih =>
      rw [List.forall_mem_cons] at h
      rw [List.map_cons, List.anyM_cons, h.1, ih h.2]
      cases hq : q b <;> simp [hq]

theorem anyM_views (hn : 0 < n) (hm : m + n ≤ S.length) :
    (views S n m).anyM (equal S · (view S m n)) =
      some (decide (∃ i < m, piece S i n = piece S m n)) := by
  rw [views, anyM_map_some (q := fun i => decide (piece S i n = piece S m n)) fun i hi => ?_]
  · simp only [List.any_reverse, Option.some.injEq]
    rw [Bool.eq_iff_iff]
    simp
  · have hLt : i < m := by simpa using hi
    exact equal_view hn (by omega) hm

theorem helper_loop_spec (h : ∀ c ∈ S, IsLower c) (hMax : S.length < max_size) (hn : 0 < n)
    {k : Nat} (hk : m + n + k = S.length + 1) :
    ∃ r, helper_loop S (poly_sum S) n k (m + n - 1) (views S n m) = some r ∧ Reports S n m r := by
  induction k generalizing m with
  | zero =>
      refine ⟨-1, rfl, Or.inl ⟨rfl, fun i j hj hFound => ?_⟩⟩
      have hBound := hFound.bound
      omega
  | succ k ih =>
      have hStart : m + n - 1 + 1 - n = m := by omega
      have hNext : m + n - 1 + 1 = m + 1 + n - 1 := by omega
      have hViews : view S m n :: views S n m = views S n (m + 1) := by
        simp [views, List.range_succ]
      have hBound : m + n ≤ S.length := by omega
      rw [helper_loop, hStart, window_eq h hMax hn hBound]
      simp only [Option.bind_eq_bind, Option.bind_some, anyM_views hn hBound, decide_eq_true_eq]
      split_ifs with hDup
      · obtain ⟨i, hi, hSame⟩ := hDup
        refine ⟨_, rfl, Or.inr ⟨i, m, ⟨hi, hBound, hSame⟩, ?_⟩⟩
        omega
      · rw [hNext, hViews]
        obtain ⟨r, hRun, hReports⟩ := ih (m := m + 1) (by omega)
        refine ⟨r, hRun, hReports.imp_left fun hNone => ⟨hNone.1, fun i j hj hFound => ?_⟩⟩
        rcases Nat.lt_or_eq_of_le hj with hLt | rfl
        · exact hNone.2 i j hLt hFound
        · exact hDup ⟨i, hFound.lt, hFound.same⟩

theorem helper_spec (h : ∀ c ∈ S, IsLower c) (hMax : S.length < max_size) (hn : 0 < n)
    (hLe : n ≤ S.length) :
    ∃ r, longestDupSubstring_helper S (poly_sum S) n = some r ∧ Reports S n 0 r := by
  have hLoop := helper_loop_spec (m := 0) h hMax hn (k := S.length + 1 - n) (by omega)
  rw [longestDupSubstring_helper, if_neg (by omega)]
  rwa [Nat.zero_add] at hLoop

end Helper

section Search

/-- Pieces that are the same have the same beginnings. -/
theorem Found.shorten (h : Found S n i j) (hLe : m ≤ n) : Found S m i j := by
  refine ⟨h.lt, Nat.le_trans (Nat.add_le_add_left hLe j) h.bound, ?_⟩
  have hTake := congrArg (List.take m) h.same
  rwa [piece, piece, List.take_take, List.take_take, Nat.min_eq_left hLe] at hTake

/-- What is known between the rounds of the binary search. -/
structure Bounds (S : List Char) (low hi dup_pos : Int) : Prop where
  nonneg : 0 ≤ low
  lt : hi < S.length
  above : ∀ n : Nat, hi < n → ∀ i j, ¬Found S n i j
  found : (low = 0 ∧ dup_pos = -1) ∨
    ∃ i j, Found S low.toNat i j ∧ 0 < low ∧ dup_pos = j + low - 1

/-- A round moves one bound to a length between the two. -/
theorem Bounds.round {low hi dup_pos r : Int} {mid : Nat} (hBounds : Bounds S low hi dup_pos)
    (hLow : low < mid) (hHigh : mid ≤ hi) (hReports : Reports S mid 0 r) :
    (r < 0 → Bounds S low (mid - 1) dup_pos) ∧ (¬r < 0 → Bounds S mid hi r) := by
  have hLt := hBounds.lt
  have hNonneg := hBounds.nonneg
  constructor
  · intro hNeg
    refine ⟨hNonneg, by omega, fun n hn i j hFound => ?_, hBounds.found⟩
    rcases hReports with ⟨-, hNone⟩ | ⟨i', j', -, hr⟩
    · exact hNone i j (Nat.zero_le j) (hFound.shorten (by omega))
    · omega
  · intro hFound
    refine ⟨by omega, hLt, hBounds.above, Or.inr ?_⟩
    rcases hReports with ⟨hNone, -⟩ | ⟨i, j, hPair, hr⟩
    · omega
    · exact ⟨i, j, hPair, by omega, hr⟩

theorem search_spec (h : ∀ c ∈ S, IsLower c) (hMax : S.length < max_size) {rounds : Nat}
    {low hi dup_pos : Int} (hBounds : Bounds S low hi dup_pos) (hRounds : hi - low ≤ rounds) :
    ∃ len top pos, search S (poly_sum S) (rounds + 1) low hi dup_pos = some (len, pos) ∧
      Bounds S len top pos ∧ top ≤ len := by
  induction rounds generalizing low hi dup_pos with
  | zero => exact ⟨low, hi, dup_pos, by rw [search, if_neg (by omega)], hBounds, by omega⟩
  | succ rounds ih =>
      rw [search]
      split_ifs with hLt
      · have hNonneg := hBounds.nonneg
        have hMid : ∃ mid : Nat, low < mid ∧ mid ≤ hi ∧
            (if (low + hi).tdiv 2 = low then low + 1 else (low + hi).tdiv 2) = mid := by
          rw [Int.tdiv_eq_ediv_of_nonneg (by omega)]
          split_ifs with hSame
          · exact ⟨(low + 1).toNat, by omega, by omega, by omega⟩
          · exact ⟨((low + hi) / 2).toNat, by omega, by omega, by omega⟩
        obtain ⟨mid, hLow, hHigh, hMid⟩ := hMid
        have hTop := hBounds.lt
        obtain ⟨r, hHelper, hReports⟩ := helper_spec h hMax (n := mid) (by omega) (by omega)
        have hRound := hBounds.round hLow hHigh hReports
        simp only [hMid, Int.toNat_natCast, hHelper, Option.bind_eq_bind, Option.bind_some]
        split_ifs with hNeg
        · exact ih (hRound.1 hNeg) (by omega)
        · exact ih (hRound.2 hNeg) (by omega)
      · exact ⟨low, hi, dup_pos, rfl, hBounds, by omega⟩

end Search

theorem length_piece (hBound : i + n ≤ S.length) : (piece S i n).length = n := by
  rw [piece, List.length_take, List.length_drop]
  omega

theorem Found.repeats (h : Found S n i j) : Repeats S (piece S j n) := by
  have hLt := h.lt
  have hBound := h.bound
  refine ⟨i, j, by omega, ⟨by omega, ?_⟩, ⟨by omega, List.take_prefix _ _⟩⟩
  rw [← h.same]
  exact List.take_prefix _ _

theorem exists_found (h : Repeats S w) : ∃ i j, Found S w.length i j := by
  have hOccurs : ∀ k, Occurs S w k → k + w.length ≤ S.length ∧ piece S k w.length = w := by
    intro k hk
    have hLength := hk.2.length_le
    rw [List.length_drop] at hLength
    exact ⟨by have := hk.1; omega, (List.prefix_iff_eq_take.mp hk.2).symm⟩
  obtain ⟨i, j, hNe, hi, hj⟩ := h
  rcases Nat.lt_or_gt_of_ne hNe with hLt | hLt
  · exact ⟨i, j, hLt, (hOccurs j hj).1, (hOccurs i hi).2.trans (hOccurs j hj).2.symm⟩
  · exact ⟨j, i, hLt, (hOccurs i hi).1, (hOccurs j hj).2.trans (hOccurs i hi).2.symm⟩

theorem nodup_iff : S.Nodup ↔ ∀ i j, ¬Found S 1 i j := by
  have hPiece : ∀ k (hk : k < S.length), piece S k 1 = [S[k]] := by
    intro k hk
    rw [piece, List.drop_eq_getElem_cons hk]
    rfl
  rw [List.nodup_iff_pairwise_ne, List.pairwise_iff_getElem]
  constructor
  · intro h i j hFound
    have hLt := hFound.lt
    have hBound := hFound.bound
    have hSame := hFound.same
    rw [hPiece i (by omega), hPiece j (by omega)] at hSame
    exact h i j (by omega) (by omega) hLt (List.head_eq_of_cons_eq hSame)
  · intro h i j hi hj hLt hEq
    refine h i j ⟨hLt, hj, ?_⟩
    rw [hPiece i hi, hPiece j hj, hEq]

section Result

variable {low hi dup_pos : Int} (hBounds : Bounds S low hi dup_pos) (hTop : hi ≤ low)
include hBounds hTop

/-- When the bounds meet, nothing longer occurs twice. -/
theorem Bounds.longest (h : Repeats S w) : (w.length : Int) ≤ low := by
  obtain ⟨i, j, hFound⟩ := exists_found h
  by_contra hLong
  exact hBounds.above _ (by omega) i j hFound

theorem Bounds.nodup (hNone : low = 0) : S.Nodup := by
  subst hNone
  exact nodup_iff.mpr (hBounds.above 1 (by omega))

end Result

theorem bounds_start (S : List Char) : Bounds S 0 (S.length - 1) (-1) := by
  refine ⟨le_rfl, by omega, fun n hn i j hFound => ?_, Or.inl ⟨rfl, rfl⟩⟩
  have hBound := hFound.bound
  have hLt := hFound.lt
  omega

theorem longestDupSubstring_longest (h : ∀ c ∈ S, IsLower c) (hMax : S.length < max_size) :
    ∃ w, longestDupSubstring S = some w ∧ (S ≠ [] → Repeats S w) ∧
      (∀ v, Repeats S v → v.length ≤ w.length) ∧ (w = [] ↔ S.Nodup) := by
  have hRounds : (S.length : Int) - 1 - 0 ≤ S.length := by omega
  obtain ⟨len, top, pos, hSearch, hBounds, hTop⟩ := search_spec h hMax (bounds_start S) hRounds
  rw [longestDupSubstring, hSearch]
  simp only [Option.bind_eq_bind, Option.bind_some]
  rcases hBounds.found with ⟨rfl, rfl⟩ | ⟨i, j, hFound, hPos, hEnd⟩
  · refine ⟨[], rfl, fun hNe => ?_, fun v hv => ?_, iff_of_true rfl (hBounds.nodup hTop rfl)⟩
    · have hSome := List.length_pos_iff.mpr hNe
      exact ⟨0, 1, by decide, ⟨by omega, List.nil_prefix⟩, ⟨by omega, List.nil_prefix⟩⟩
    · simpa using hBounds.longest hTop hv
  · have hBound := hFound.bound
    have hStart : (pos - len + 1).toNat = j := by omega
    have hPiece := length_piece hBound
    rw [if_neg (by omega), hStart, if_pos (by omega)]
    refine ⟨_, rfl, fun _ => hFound.repeats, fun v hv => ?_, iff_of_false ?_ fun hNodup => ?_⟩
    · rw [← piece, hPiece]
      have hLe := hBounds.longest hTop hv
      omega
    · rw [← piece]
      apply List.ne_nil_of_length_pos
      omega
    · exact nodup_iff.mp hNodup i j (hFound.shorten (by omega))

/-- The result occurs twice and is as long as any such substring, and the hashes of windows of
one length decide nothing by themselves. -/
theorem longestDupSubstring_spec (S : List Char) (hLower : ∀ c ∈ S, 'a' ≤ c ∧ c ≤ 'z')
    (hLength : S.length ≤ 100000) :
    (∃ w, longestDupSubstring S = some w ∧ (S ≠ [] → Repeats S w) ∧
      (∀ v, Repeats S v → v.length ≤ w.length) ∧ (w = [] ↔ S.Nodup)) ∧
    ∀ n i j, 0 < n → i + n ≤ S.length → j + n ≤ S.length →
      ∃ v w, window (poly_sum S) i (i + n - 1) = some v ∧
        window (poly_sum S) j (j + n - 1) = some w ∧
        ((S.drop i).take n = (S.drop j).take n → v.hash_val = w.hash_val) ∧
        equal S v w = some (decide ((S.drop i).take n = (S.drop j).take n)) := by
  have hMax : S.length < max_size := Nat.lt_succ_of_le hLength
  refine ⟨longestDupSubstring_longest hLower hMax, fun n i j hn hi hj => ?_⟩
  refine ⟨_, _, window_eq hLower hMax hn hi, window_eq hLower hMax hn hj, fun hSame => ?_,
    equal_view hn hi hj⟩
  exact congrArg (poly · % MOD) hSame

theorem longestDupSubstring_spec_banana : Repeats "banana".toList "ana".toList ∧
    ∀ v, Repeats "banana".toList v → v.length ≤ 3 := by
  obtain ⟨⟨w, hw, hRepeats, hLongest, -⟩, -⟩ :=
    longestDupSubstring_spec "banana".toList (List.all_iff_forall_prop.mp (by decide)) (by decide)
  have hRun : longestDupSubstring "banana".toList = some "ana".toList := by decide +kernel
  rw [hRun, Option.some.injEq] at hw
  subst hw
  exact ⟨hRepeats (by decide), hLongest⟩

end CppPerf.Strings.LongestDupSubStr
