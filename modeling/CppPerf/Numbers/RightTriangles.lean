import Mathlib.Data.Int.Sqrt
import Mathlib.NumberTheory.PythagoreanTriples

/-! `rightTrianglesFundamental` of `helper.h`, over the integers. -/
namespace CppPerf.Numbers

/-- The remainder of C++ has the sign of the first number. -/
def gcd (p q : Int) : Int := if _h : q = 0 then p else gcd q (p.tmod q)
termination_by q.natAbs
decreasing_by
  rw [Int.natAbs_tmod]
  exact Nat.mod_lt _ (Int.natAbs_pos.mpr _h)

/-- What is pushed for `m` and `n`. -/
def triangle (n m : Int) : List Int :=
  let m_sq := m * m
  let n_sq := n * n
  [m_sq - n_sq, 2 * m * n, m_sq + n_sq]

/-- The body of the loop over `m`. -/
def push (N n m : Int) (triangles : List (List Int)) : List (List Int) :=
  if gcd m n = 1 ∧ 2 * m * (m + n) ≤ N then triangles ++ [triangle n m] else triangles

def mLoop (N MAX_M n m : Int) (triangles : List (List Int)) : List (List Int) :=
  if m < MAX_M then mLoop N MAX_M n (m + 2) (push N n m triangles) else triangles
termination_by (MAX_M - m).toNat

/-- The loop over `n`. -/
def nLoop (N MAX_N MAX_M n : Int) (triangles : List (List Int)) : List (List Int) :=
  if n < MAX_N then nLoop N MAX_N MAX_M (n + 1) (mLoop N MAX_M n (n + 1) triangles)
  else triangles
termination_by (MAX_N - n).toNat

def rightTrianglesFundamental (N : Int) : List (List Int) :=
  let MAX_N := Int.sqrt (N / 4) + 1
  let MAX_M := Int.sqrt (N / 2) + 1
  nLoop N MAX_N MAX_M 1 []

/-- A right triangle whose sides have no common divisor; `c` is the longest side. -/
structure Primitive (a b c : Int) : Prop where
  a_pos : 0 < a
  b_pos : 0 < b
  c_pos : 0 < c
  right : a * a + b * b = c * c
  primitive : Nat.gcd (Int.gcd a b) c.natAbs = 1

/-- The pairs of Euclid's method with a perimeter of at most `N`. -/
structure Euclid (N n m : Int) : Prop where
  n_pos : 0 < n
  lt : n < m
  parity : m % 2 = (n + 1) % 2
  coprime : Int.gcd m n = 1
  perimeter : 2 * m * (m + n) ≤ N

theorem gcd_eq {p q : Int} (hp : 0 ≤ p) (hq : 0 ≤ q) : gcd p q = Int.gcd p q := by
  induction p, q using gcd.induct with
  | case1 p => rw [gcd, dif_pos rfl, Int.gcd_zero_right, Int.natAbs_of_nonneg hp]
  | case2 p q hNe ih =>
      rw [gcd, dif_neg hNe, ih hq (Int.tmod_nonneg q hp), Int.gcd, Int.natAbs_tmod, Nat.gcd_comm,
        ← Nat.gcd_rec, Nat.gcd_comm, Int.gcd]

section Loops

variable {N MAX_N MAX_M : Int}

/-- The loop over `m` pushes a triangle for every `m` that passes, each of them once. -/
theorem mLoop_eq {n m : Int} (hn : 0 < n) (hm : n < m) (hParity : m % 2 = (n + 1) % 2)
    (triangles : List (List Int)) :
    ∃ ms : List Int, mLoop N MAX_M n m triangles = triangles ++ ms.map (triangle n) ∧ ms.Nodup ∧
      ∀ x, x ∈ ms ↔ m ≤ x ∧ x < MAX_M ∧ Euclid N n x := by
  induction m, triangles using mLoop.induct N MAX_M n with
  | case1 m triangles hLt ih =>
      obtain ⟨ms, hEq, hNodup, hMem⟩ := ih (by omega) (by omega)
      have hGcd := gcd_eq (p := m) (q := n) (by omega) (by omega)
      rw [mLoop, if_pos hLt, hEq]
      by_cases hPass : gcd m n = 1 ∧ 2 * m * (m + n) ≤ N
      · refine ⟨m :: ms, by simp [push, hPass], ?_, fun x => ?_⟩
        · refine List.nodup_cons.mpr ⟨fun h => ?_, hNodup⟩
          have := ((hMem m).mp h).1
          omega
        · have hEuclid : Euclid N n m := ⟨hn, hm, hParity, by omega, hPass.2⟩
          rw [List.mem_cons, hMem]
          constructor
          · rintro (rfl | ⟨hLe, hRest⟩)
            · exact ⟨Int.le_refl _, hLt, hEuclid⟩
            · exact ⟨by omega, hRest⟩
          · rintro ⟨hLe, hMax, hx⟩
            have := hx.parity
            by_cases hSame : x = m
            · exact Or.inl hSame
            · exact Or.inr ⟨by omega, hMax, hx⟩
      · refine ⟨ms, by rw [push, if_neg hPass], hNodup, fun x => ?_⟩
        rw [hMem]
        constructor
        · rintro ⟨hLe, hRest⟩
          exact ⟨by omega, hRest⟩
        · rintro ⟨hLe, hMax, hx⟩
          have := hx.parity
          have hNe : x ≠ m := by
            rintro rfl
            exact hPass ⟨by rw [hGcd, hx.coprime]; rfl, hx.perimeter⟩
          exact ⟨by omega, hMax, hx⟩
  | case2 m triangles hGe =>
      refine ⟨[], by rw [mLoop, if_neg hGe]; simp, List.nodup_nil, fun x => ?_⟩
      simp only [List.not_mem_nil, false_iff]
      rintro ⟨hLe, hMax, -⟩
      omega

/-- Both loops: every pair once. -/
theorem nLoop_eq {n : Int} (hn : 0 < n) (triangles : List (List Int)) :
    ∃ pairs : List (Int × Int),
      nLoop N MAX_N MAX_M n triangles = triangles ++ pairs.map (fun p => triangle p.1 p.2) ∧
      pairs.Nodup ∧
      ∀ x, x ∈ pairs ↔ n ≤ x.1 ∧ x.1 < MAX_N ∧ x.2 < MAX_M ∧ Euclid N x.1 x.2 := by
  induction n, triangles using nLoop.induct N MAX_N MAX_M with
  | case1 n triangles hLt ih =>
      obtain ⟨ms, hInner, hNodup, hMem⟩ := mLoop_eq (N := N) (m := n + 1) hn (by omega) rfl
        triangles
      obtain ⟨pairs, hEq, hOthers, hPairs⟩ := ih (by omega)
      refine ⟨ms.map (fun m => (n, m)) ++ pairs, ?_, ?_, fun x => ?_⟩
      · rw [nLoop, if_pos hLt, hEq, hInner]
        simp [Function.comp_def]
      · refine List.nodup_append'.mpr ⟨hNodup.map fun a b h => (Prod.mk.inj h).2, hOthers, ?_⟩
        intro x hx hOther
        obtain ⟨m, -, rfl⟩ := List.mem_map.mp hx
        have hLe : n + 1 ≤ n := ((hPairs _).mp hOther).1
        omega
      · obtain ⟨k, m⟩ := x
        rw [List.mem_append, hPairs, List.mem_map]
        constructor
        · rintro (⟨y, hy, hEq⟩ | ⟨hLe, hRest⟩)
          · cases hEq
            obtain ⟨-, hMax, hEuclid⟩ := (hMem m).mp hy
            exact ⟨Int.le_refl _, hLt, hMax, hEuclid⟩
          · exact ⟨by omega, hRest⟩
        · rintro ⟨hLe, hMax, hM, hEuclid⟩
          by_cases hSame : k = n
          · subst hSame
            exact Or.inl ⟨m, (hMem m).mpr ⟨by have := hEuclid.lt; omega, hM, hEuclid⟩, rfl⟩
          · exact Or.inr ⟨by omega, hMax, hM, hEuclid⟩
  | case2 n triangles hGe =>
      refine ⟨[], by rw [nLoop, if_neg hGe]; simp, List.nodup_nil, fun x => ?_⟩
      simp only [List.not_mem_nil, false_iff]
      rintro ⟨hLe, hMax, -⟩
      omega

end Loops

/-! Euclid's method gives every primitive right triangle once, with its odd leg first. -/

variable {N n m a b c : Int}

theorem Primitive.symm (h : Primitive a b c) : Primitive b a c :=
  ⟨h.b_pos, h.a_pos, h.c_pos, by rw [Int.add_comm, h.right],
    by rw [Int.gcd_comm]; exact h.primitive⟩

/-- A common divisor of the legs divides the third side. -/
theorem Primitive.coprime (h : Primitive a b c) : Int.gcd a b = 1 := by
  have hTriple : PythagoreanTriple a b c := h.right
  have hDvd : Int.gcd a b ∣ c.natAbs := Int.natCast_dvd.mp hTriple.gcd_dvd
  rw [← h.primitive, Nat.gcd_eq_left hDvd]

theorem Primitive.even_odd (h : Primitive a b c) :
    a % 2 = 0 ∧ b % 2 = 1 ∨ a % 2 = 1 ∧ b % 2 = 0 := by
  have hTriple : PythagoreanTriple a b c := h.right
  exact hTriple.even_odd_of_coprime h.coprime

theorem Euclid.primitive (h : Euclid N n m) :
    Primitive (m * m - n * n) (2 * m * n) (m * m + n * n) := by
  have hn := h.n_pos
  have hLt := h.lt
  have hParity := h.parity
  have hSquares : n * n < m * m := mul_self_lt_mul_self hn.le hLt
  have hTriple := PythagoreanTriple.coprime_classification (x := m * m - n * n) (y := 2 * m * n)
    (z := m * m + n * n) |>.mpr ⟨m, n, Or.inl ⟨by ring, rfl⟩, Or.inl (by ring), h.coprime,
      by omega⟩
  refine ⟨by omega, Int.mul_pos (by omega) hn, ?_, hTriple.1, ?_⟩
  · have := Int.mul_pos hn hn
    omega
  · rw [hTriple.2, Nat.gcd_one_left]

theorem Euclid.perimeter_le (h : Euclid N n m) :
    (m * m - n * n) + 2 * m * n + (m * m + n * n) ≤ N := by
  calc
    _ = 2 * m * (m + n) := by ring
    _ ≤ N := h.perimeter

/-- The bounds of both loops are passed by no pair. -/
theorem Euclid.lt_bounds (h : Euclid N n m) :
    n < Int.sqrt (N / 4) + 1 ∧ m < Int.sqrt (N / 2) + 1 := by
  have hn := h.n_pos
  have hLt := h.lt
  have hPerimeter := h.perimeter
  have hNat : ∀ x y : Int, 0 ≤ x → x * x ≤ y → x < Int.sqrt y + 1 := by
    intro x y hx hLe
    have hSqrt : x.toNat ≤ Nat.sqrt y.toNat := by
      rw [Nat.le_sqrt, ← Int.toNat_mul hx hx]
      exact Int.toNat_le_toNat hLe
    rw [Int.sqrt]
    omega
  constructor
  · apply hNat _ _ hn.le
    rw [Int.le_ediv_iff_mul_le (by decide)]
    nlinarith
  · apply hNat _ _ (by omega)
    rw [Int.le_ediv_iff_mul_le (by decide)]
    nlinarith

/-- With the odd leg first, there is a pair. -/
theorem Primitive.exists_euclid (h : Primitive a b c) (hOdd : a % 2 = 1) (hN : a + b + c ≤ N) :
    ∃ n m, Euclid N n m ∧ triangle n m = [a, b, c] := by
  have hTriple : PythagoreanTriple a b c := h.right
  obtain ⟨m, n, ha, hb, hc, hCoprime, hParity, hm⟩ :=
    hTriple.coprime_classification' h.coprime hOdd h.c_pos
  have hProduct : 0 < m * n := by
    have := h.b_pos
    rw [hb, Int.mul_assoc] at this
    omega
  have hmPos : 0 < m := by
    rcases hm.lt_or_eq with hm | hm
    · exact hm
    · simp [← hm] at hProduct
  have hnPos : 0 < n := (mul_pos_iff_of_pos_left hmPos).mp hProduct
  have hLt : n < m := by
    by_contra hGe
    have hA := h.a_pos
    rw [ha] at hA
    nlinarith
  refine ⟨n, m, ⟨hnPos, hLt, by omega, hCoprime, ?_⟩, ?_⟩
  · calc
      2 * m * (m + n) = (m ^ 2 - n ^ 2) + 2 * m * n + (m ^ 2 + n ^ 2) := by ring
      _ = a + b + c := by rw [ha, hb, hc]
      _ ≤ N := hN
  · rw [ha, hb, hc, triangle]
    simp [pow_two]

/-- The sides give the pair back. -/
theorem triangle_inj {n' m' : Int} (hm : 0 < m) (hn : 0 < n) (hm' : 0 < m') (hn' : 0 < n')
    (h : triangle n m = triangle n' m') : n = n' ∧ m = m' := by
  simp only [triangle, List.cons.injEq, and_true] at h
  obtain ⟨hA, -, hC⟩ := h
  have hSquare : ∀ x y : Int, 0 < x → 0 < y → x * x = y * y → x = y := by
    intro x y hx hy hEq
    exact (mul_self_inj hx.le hy.le).mp hEq
  exact ⟨hSquare n n' hn hn' (by omega), hSquare m m' hm hm' (by omega)⟩

theorem rightTrianglesFundamental_eq (N : Int) :
    ∃ pairs : List (Int × Int),
      rightTrianglesFundamental N = pairs.map (fun p => triangle p.1 p.2) ∧ pairs.Nodup ∧
      ∀ x, x ∈ pairs ↔ Euclid N x.1 x.2 := by
  obtain ⟨pairs, hEq, hNodup, hMem⟩ := @nLoop_eq N (Int.sqrt (N / 4) + 1)
    (Int.sqrt (N / 2) + 1) 1 (by decide) []
  refine ⟨pairs, hEq, hNodup, fun x => (hMem x).trans ?_⟩
  constructor
  · exact fun h => h.2.2.2
  · intro h
    obtain ⟨hn, hm⟩ := h.lt_bounds
    exact ⟨h.n_pos, hn, hm, h⟩

theorem nodup_rightTrianglesFundamental (N : Int) : (rightTrianglesFundamental N).Nodup := by
  obtain ⟨pairs, hEq, hNodup, hMem⟩ := rightTrianglesFundamental_eq N
  rw [hEq]
  refine List.Nodup.map_on ?_ hNodup
  intro x hx y hy hSame
  have hX := (hMem x).mp hx
  have hY := (hMem y).mp hy
  have h := triangle_inj (Int.lt_trans hX.n_pos hX.lt) hX.n_pos (Int.lt_trans hY.n_pos hY.lt)
    hY.n_pos hSame
  exact Prod.ext h.1 h.2

theorem mem_rightTrianglesFundamental (t : List Int) :
    t ∈ rightTrianglesFundamental N ↔ ∃ n m, Euclid N n m ∧ triangle n m = t := by
  obtain ⟨pairs, hEq, -, hMem⟩ := rightTrianglesFundamental_eq N
  rw [hEq, List.mem_map]
  constructor
  · rintro ⟨x, hx, hSame⟩
    exact ⟨x.1, x.2, (hMem x).mp hx, hSame⟩
  · rintro ⟨n, m, hEuclid, hSame⟩
    exact ⟨(n, m), (hMem (n, m)).mpr hEuclid, hSame⟩

/-- The even leg is never first. -/
theorem not_mem_of_even (hEven : a % 2 = 0) : [a, b, c] ∉ rightTrianglesFundamental N := by
  rw [mem_rightTrianglesFundamental]
  rintro ⟨n, m, hEuclid, hSame⟩
  simp only [triangle, List.cons.injEq] at hSame
  have hEq := hSame.1
  have hParity := hEuclid.parity
  rcases Int.emod_two_eq_zero_or_one n with hn | hn
  · obtain ⟨i, rfl⟩ : ∃ i, n = 2 * i := ⟨n / 2, by omega⟩
    obtain ⟨j, rfl⟩ : ∃ j, m = 2 * j + 1 := ⟨m / 2, by omega⟩
    ring_nf at hEq
    omega
  · obtain ⟨i, rfl⟩ : ∃ i, n = 2 * i + 1 := ⟨n / 2, by omega⟩
    obtain ⟨j, rfl⟩ : ∃ j, m = 2 * j := ⟨m / 2, by omega⟩
    ring_nf at hEq
    omega

theorem count_of_odd (h : Primitive a b c) (hOdd : a % 2 = 1) (hN : a + b + c ≤ N) :
    (rightTrianglesFundamental N).count [a, b, c] = 1 ∧
      (rightTrianglesFundamental N).count [b, a, c] = 0 := by
  have hEven : b % 2 = 0 := by
    have := h.even_odd
    omega
  constructor
  · apply List.count_eq_one_of_mem (nodup_rightTrianglesFundamental N)
    exact (mem_rightTrianglesFundamental _).mpr (h.exists_euclid hOdd hN)
  · exact List.count_eq_zero.mpr (not_mem_of_even hEven)

/-- Nothing but primitive right triangles with a perimeter of at most `N`, and each of them
once, with its legs in one of both orders. -/
theorem rightTrianglesFundamental_spec (N : Int) :
    (∀ t ∈ rightTrianglesFundamental N, ∃ a b c, t = [a, b, c] ∧ Primitive a b c ∧
      a + b + c ≤ N) ∧
    ∀ a b c : Int, Primitive a b c → a + b + c ≤ N →
      (rightTrianglesFundamental N).count [a, b, c] +
        (rightTrianglesFundamental N).count [b, a, c] = 1 := by
  constructor
  · intro t ht
    obtain ⟨n, m, hEuclid, rfl⟩ := (mem_rightTrianglesFundamental t).mp ht
    exact ⟨_, _, _, rfl, hEuclid.primitive, hEuclid.perimeter_le⟩
  · intro a b c hPrimitive hPerimeter
    rcases hPrimitive.even_odd with ⟨-, hOdd⟩ | ⟨hOdd, -⟩
    · have hSwapped : b + a + c ≤ N := by omega
      obtain ⟨hOne, hZero⟩ := count_of_odd hPrimitive.symm hOdd hSwapped
      rw [hZero, hOne]
    · obtain ⟨hOne, hZero⟩ := count_of_odd hPrimitive hOdd hPerimeter
      rw [hOne, hZero]

end CppPerf.Numbers
