import Mathlib.Data.List.Nodup
import Mathlib.Data.List.Perm.Basic
import Mathlib.Tactic.Common

/-! A pool of numbered chunks. What is handed out is an interval of numbers;
the free numbers are kept in increasing order. -/
namespace IntervalPool

/-- The numbers of a live allocation, given by its first number and its length. -/
def interval (r : Nat × Nat) : List Nat := List.range' r.1 r.2

/-- A pool with `count` chunks. Every chunk is free or part of exactly one live
allocation. -/
structure Pool (count : Nat) where
  free : List Nat
  live : List (Nat × Nat)
  sorted : free.Pairwise (· < ·)
  conserved : (free ++ live.flatMap interval).Perm (List.range count)

namespace Pool

variable {count : Nat} (pool : Pool count)

/-- Everything is free. -/
def full (count : Nat) : Pool count where
  free := List.range count
  live := []
  sorted := List.pairwise_lt_range
  conserved := by rw [List.flatMap_nil, List.append_nil]

theorem nodup : (pool.free ++ pool.live.flatMap interval).Nodup :=
  pool.conserved.nodup_iff.mpr List.nodup_range

theorem lt_count_of_mem_free {x : Nat} (h : x ∈ pool.free) : x < count :=
  List.mem_range.mp (pool.conserved.mem_iff.mp (List.mem_append_left _ h))

theorem length_free_le : pool.free.length ≤ count := by
  have hLength := pool.conserved.length_eq
  rw [List.length_append, List.length_range] at hLength
  omega

theorem mem_live_interval {r : Nat × Nat} (h : r ∈ pool.live) {x : Nat} (hLow : r.1 ≤ x)
    (hHigh : x < r.1 + r.2) : x ∈ pool.live.flatMap interval :=
  List.mem_flatMap.mpr ⟨r, h, List.mem_range'_1.mpr ⟨hLow, hHigh⟩⟩

/-- A live allocation lies inside the pool. -/
theorem live_le_count {r : Nat × Nat} (h : r ∈ pool.live) (hPos : 0 < r.2) : r.1 + r.2 ≤ count := by
  have hLast : r.1 + (r.2 - 1) ∈ pool.live.flatMap interval :=
    pool.mem_live_interval h (Nat.le_add_right _ _) (by omega)
  have hLt := List.mem_range.mp (pool.conserved.mem_iff.mp (List.mem_append_right _ hLast))
  omega

/-- A free chunk is not part of a live allocation. -/
theorem free_outside_live {r : Nat × Nat} (h : r ∈ pool.live) {x : Nat} (hx : x ∈ pool.free) :
    x < r.1 ∨ r.1 + r.2 ≤ x := by
  by_contra hInside
  have hLive : x ∈ pool.live.flatMap interval :=
    pool.mem_live_interval h (show r.1 ≤ x by omega) (by omega)
  exact List.disjoint_of_nodup_append pool.nodup hx hLive

/-- Hand out an interval of free chunks. -/
def take {front back : List Nat} {j n : Nat}
    (h : pool.free = front ++ (List.range' j n ++ back)) : Pool count where
  free := front ++ back
  live := (j, n) :: pool.live
  sorted := by
    have hSub : (front ++ back).Sublist pool.free := by
      rw [h]
      exact (List.Sublist.refl front).append (List.sublist_append_right _ back)
    exact pool.sorted.sublist hSub
  conserved := by
    have hOld := pool.conserved
    rw [h, List.append_assoc, List.append_assoc] at hOld
    rw [List.flatMap_cons, List.append_assoc]
    refine List.Perm.trans (List.Perm.append_left front ?_) hOld
    rw [← List.append_assoc, ← List.append_assoc]
    exact List.perm_append_comm.append_right _

/-- Take a live allocation back. -/
def put {front back : List Nat} {j n : Nat} (hLive : (j, n) ∈ pool.live)
    (h : pool.free = front ++ back) (hFront : ∀ x ∈ front, x < j) (hBack : ∀ x ∈ back, j ≤ x) :
    Pool count where
  free := front ++ (List.range' j n ++ back)
  live := pool.live.erase (j, n)
  sorted := by
    have hOld := pool.sorted
    rw [h, List.pairwise_append] at hOld
    obtain ⟨hSortedFront, hSortedBack, hAcross⟩ := hOld
    have hPast : ∀ x ∈ back, j + n ≤ x := by
      intro x hx
      have hFree : x ∈ pool.free := by
        rw [h]
        exact List.mem_append_right _ hx
      rcases pool.free_outside_live hLive hFree with hLt | hGe
      · exact absurd (hBack x hx) (Nat.not_le.mpr hLt)
      · exact hGe
    rw [List.pairwise_append, List.pairwise_append]
    refine ⟨hSortedFront, ⟨List.pairwise_lt_range' 1, hSortedBack, ?_⟩, ?_⟩
    · intro x hx y hy
      have hx' := List.mem_range'_1.mp hx
      have hy' := hPast y hy
      omega
    · intro x hx y hy
      rcases List.mem_append.mp hy with hRun | hRest
      · have hx' := hFront x hx
        have hy' := List.mem_range'_1.mp hRun
        omega
      · exact hAcross x hx y hRest
  conserved := by
    have hOld := pool.conserved
    rw [h] at hOld
    have hErase : (pool.live.flatMap interval).Perm
        (List.range' j n ++ (pool.live.erase (j, n)).flatMap interval) := by
      have hCons := (List.perm_cons_erase hLive).flatMap_right interval
      rwa [List.flatMap_cons] at hCons
    refine List.Perm.trans ?_ ((hErase.append_left (front ++ back)).symm.trans hOld)
    rw [List.append_assoc, List.append_assoc, List.append_assoc]
    refine List.Perm.append_left front ?_
    rw [← List.append_assoc, ← List.append_assoc]
    exact List.perm_append_comm.append_right _

/-- Once nothing is live the pool is full again. -/
theorem free_eq_range (h : pool.live = []) : pool.free = List.range count := by
  have hPerm := pool.conserved
  rw [h, List.flatMap_nil, List.append_nil] at hPerm
  refine List.Perm.eq_of_pairwise ?_ pool.sorted List.pairwise_lt_range hPerm
  intro a b _ _ hLt hGt
  omega

end Pool
end IntervalPool
