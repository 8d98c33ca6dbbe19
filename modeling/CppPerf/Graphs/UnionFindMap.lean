import CppPerf.Graphs.UnionFindConnected
import Mathlib.Algebra.Order.Ring.Int
import Mathlib.Data.Nat.Cast.Order.Ring

/-! The union-find over a map. Its nodes are the values of an `int`, and so are
its sizes, of which the largest is below that of the set of all nodes. -/
namespace CppPerf.Graphs

open Forest Ordered Partition Transition

/-- The nodes, which are the values of an `int`. -/
def ints : Finset Int := (Finset.range (2 ^ 32)).image fun n : Nat => (n : Int) - 2 ^ 31

theorem mem_ints {a : Int} : a ∈ ints ↔ -2 ^ 31 ≤ a ∧ a < 2 ^ 31 := by
  rw [ints, Finset.mem_image]
  constructor
  · rintro ⟨n, hn, rfl⟩
    have hLt := Finset.mem_range.mp hn
    omega
  · rintro ⟨hLow, hHigh⟩
    exact ⟨(a + 2 ^ 31).toNat, Finset.mem_range.mpr (by omega), by omega⟩

theorem toInt_add_of_lt {a b : Int32} (ha : 0 ≤ a.toInt) (hb : 0 ≤ b.toInt)
    (h : a.toInt + b.toInt < 2 ^ 31) : (a + b).toInt = a.toInt + b.toInt := by
  rw [Int32.toInt_add]
  exact Int.bmod_eq_of_le (by omega) (by omega)

namespace UnionFind_Map

variable {uf : UnionFind_Map} {u v p q : Int} {rep : Int → Int} {edges : List (Int × Int)}

structure Sound (uf : UnionFind_Map) (rep : Int → Int) (edges : List (Int × Int)) : Prop where
  tracks : Tracks ints uf.parents.lookup uf.parents.entries.length rep edges
  weighs : largest ints edges < 2 ^ 31 →
    ∀ r ∈ heads ints rep, (uf.sizeOf r).toInt = (members ints rep r).card
  greatest : largest ints edges < 2 ^ 31 →
    uf.max_size.toInt = if largest ints edges = 1 then 0 else largest ints edges

theorem findLoop_eq (rounds : Nat) (a : Int) :
    uf.findLoop rounds a = climb uf.parents.lookup rounds a := by
  induction rounds generalizing a with
  | zero => rfl
  | succ rounds ih =>
      rw [findLoop, climb]
      cases uf.parents.lookup a with
      | none => rfl
      | some p => exact ih p

theorem zero_mem_ints : 0 ∈ ints := mem_ints.mpr ⟨by decide, by decide⟩

theorem largest_nil : largest ints [] = 1 := by
  rw [Represents.start.largest_eq fun a ha => ha]
  apply le_antisymm
  · refine Finset.sup_le fun r hr => ?_
    rw [members_id (mem_heads.mp hr).1]
    rfl
  · have hHead : (0 : Int) ∈ heads ints id := mem_heads.mpr ⟨zero_mem_ints, rfl⟩
    exact (card_members_pos hHead).trans_le (card_members_le_sup hHead)

theorem empty_sound : Sound {} id [] where
  tracks := Tracks.start ints
  weighs _ r hr := by
    rw [members_id (mem_heads.mp hr).1]
    rfl
  greatest _ := by
    rw [largest_nil, if_pos rfl]
    rfl

theorem lookup_link (child p : Int) (sc sp : Int32) :
    (uf.link child p sc sp).parents.lookup =
      Function.update uf.parents.lookup child (some p) := by
  funext a
  by_cases hEq : a = child
  · rw [hEq, Function.update_self]
    exact uf.parents.lookup_set_self child p
  · rw [Function.update_of_ne hEq]
    exact uf.parents.lookup_set_of_ne p hEq

theorem length_link {child : Int} (hRoot : uf.parents.lookup child = none) (p : Int)
    (sc sp : Int32) :
    (uf.link child p sc sp).parents.entries.length = uf.parents.entries.length + 1 := by
  rw [link, (uf.parents.perm_set child p).length_eq, List.length_cons,
    uf.parents.erase_of_lookup_eq_none hRoot]

theorem sizeOf_link_self (child p : Int) {sc sp : Int32} (hPos : 0 < (sp + sc).toInt) :
    (uf.link child p sc sp).sizeOf p = sp + sc := by
  have hNe : sp + sc ≠ 0 := by
    intro hZero
    rw [hZero] at hPos
    exact absurd hPos (by decide)
  rw [sizeOf, link, OrderedMap.lookup_set_self, Option.getD_some]
  exact if_neg hNe

theorem sizeOf_link_of_ne {r child p : Int} (sc sp : Int32) (hChild : r ≠ child) (hp : r ≠ p) :
    (uf.link child p sc sp).sizeOf r = uf.sizeOf r := by
  rw [sizeOf, sizeOf, link, OrderedMap.lookup_set_of_ne _ _ hp,
    OrderedMap.lookup_set_of_ne _ _ hChild]

namespace Sound

theorem find_parent_eq (h : Sound uf rep edges) (u : Int) : uf.find_parent u = some (rep u) := by
  rw [find_parent, findLoop_eq]
  exact h.tracks.rooted.climb_eq (Nat.lt_succ_self _) u

theorem same (h : Sound uf rep edges) (hSame : rep u = rep v) :
    Sound uf rep (edges ++ [(u, v)]) := by
  have hTracks := h.tracks.same hSame
  have hLargest : largest ints (edges ++ [(u, v)]) = largest ints edges := by
    rw [hTracks.represents.largest_eq fun a ha => hTracks.rep_mem ha,
      h.tracks.represents.largest_eq fun a ha => h.tracks.rep_mem ha]
  refine ⟨hTracks, ?_, ?_⟩
  · rw [hLargest]
    exact h.weighs
  · rw [hLargest]
    exact h.greatest

theorem link (h : Sound uf rep edges) (hp : p ∈ heads ints rep) (hq : q ∈ heads ints rep)
    (hNe : p ≠ q) (hEnds : p = rep u ∧ q = rep v ∨ p = rep v ∧ q = rep u) :
    Sound (uf.link p q (uf.sizeOf p) (uf.sizeOf q)) (merge rep p q) (edges ++ [(u, v)]) := by
  have hTracks := h.tracks.link hp hq hNe hEnds
  rw [← lookup_link p q (uf.sizeOf p) (uf.sizeOf q),
    ← length_link (h.tracks.mem_heads_iff.mp hp).2 q (uf.sizeOf p) (uf.sizeOf q)] at hTracks
  have hLargest : largest ints (edges ++ [(u, v)]) =
      max (largest ints edges) ((members ints rep q).card + (members ints rep p).card) := by
    rw [hTracks.represents.largest_eq fun a ha => hTracks.rep_mem ha,
      h.tracks.represents.largest_eq fun a ha => h.tracks.rep_mem ha]
    exact sup_members_merge hp hq hNe
  have hpPos := card_members_pos hp
  have hqPos := card_members_pos hq
  have hSum : largest ints (edges ++ [(u, v)]) < 2 ^ 31 →
      (uf.sizeOf q + uf.sizeOf p).toInt =
        (members ints rep q).card + (members ints rep p).card := by
    intro hFits
    have hOld := h.weighs (by omega)
    have hSizeP := hOld p hp
    have hSizeQ := hOld q hq
    rw [toInt_add_of_lt (by omega) (by omega) (by omega), hSizeP, hSizeQ]
  refine ⟨hTracks, fun hFits r hr => ?_, fun hFits => ?_⟩
  · have hSum := hSum hFits
    rw [heads_merge hp hNe (mem_heads.mp hq).2] at hr
    obtain ⟨hrp, hr⟩ := Finset.mem_erase.mp hr
    by_cases hrq : r = q
    · rw [hrq, sizeOf_link_self p q (by omega), hSum, card_members_merge_self hNe, Nat.cast_add]
    · rw [sizeOf_link_of_ne _ _ hrp hrq, members_merge_of_ne hrp hrq]
      exact h.weighs (by omega) r hr
  · have hSum := hSum hFits
    have hOld := h.greatest (by omega)
    have hMax : (uf.link p q (uf.sizeOf p) (uf.sizeOf q)).max_size =
        if uf.max_size < uf.sizeOf q + uf.sizeOf p then uf.sizeOf q + uf.sizeOf p
        else uf.max_size := rfl
    rw [hMax, if_neg (show ¬largest ints (edges ++ [(u, v)]) = 1 by omega)]
    by_cases hMore : uf.max_size < uf.sizeOf q + uf.sizeOf p
    · rw [if_pos hMore]
      rw [Int32.lt_iff_toInt_lt] at hMore
      split_ifs at hOld
      all_goals omega
    · rw [if_neg hMore]
      rw [Int32.lt_iff_toInt_lt] at hMore
      split_ifs at hOld
      all_goals omega

theorem join (h : Sound uf rep edges) (hu : u ∈ ints) (hv : v ∈ ints) :
    ∃ uf' rep', uf.join u v = some uf' ∧ Sound uf' rep' (edges ++ [(u, v)]) := by
  obtain ⟨joined, uf', rep', hRun, -, hNext⟩ := h.tracks.join hu hv uf
    (fun p q => uf.link p q (uf.sizeOf p) (uf.sizeOf q))
    (fun t rep => Sound t rep (edges ++ [(u, v)])) h.same
    (fun p q hp hq hNe hEnds => h.link hp hq hNe hEnds)
    (uf.sizeOf (rep v) < uf.sizeOf (rep u))
  refine ⟨uf', rep', ?_, hNext⟩
  rw [UnionFind_Map.join, h.find_parent_eq, h.find_parent_eq, Option.bind_some, Option.bind_some]
  have hRun := congrArg (Option.map Prod.snd) hRun
  rw [apply_ite (Option.map Prod.snd), apply_ite (Option.map Prod.snd)] at hRun
  exact hRun

/-- The code keeps the largest size as an `int`. -/
theorem largest_CC_iff (h : Sound uf rep edges) (hNode : ∀ e ∈ edges, e.1 ∈ ints ∧ e.2 ∈ ints)
    (hMerged : ∃ e ∈ edges, e.1 ≠ e.2) :
    uf.largest_CC.toInt = largest ints edges ↔ largest ints edges < 2 ^ 31 := by
  constructor
  · intro hEq
    have hLt := Int32.toInt_lt uf.largest_CC
    omega
  · intro hFits
    obtain ⟨e, he, hNe⟩ := hMerged
    have hTwo := h.tracks.represents.two_le_largest (fun a ha => h.tracks.rep_mem ha)
      (hNode e he).1 (hNode e he).2 hNe (Connected.of_mem he)
    have hGreatest := h.greatest hFits
    rwa [if_neg (by omega)] at hGreatest

end Sound

def step (uf : UnionFind_Map) (e : Int × Int) : Option UnionFind_Map := uf.join e.1 e.2

theorem run_sound (hEdges : ∀ e ∈ edges, e.1 ∈ ints ∧ e.2 ∈ ints) :
    ∃ uf, run step {} edges = some uf ∧ ∃ rep, Sound uf rep edges := by
  refine run_of_history (R := fun uf seen => ∃ rep, Sound uf rep seen)
    (fun uf seen e hSound hEdge => ?_) ⟨id, empty_sound⟩ hEdges
  obtain ⟨rep, hSound⟩ := hSound
  obtain ⟨uf', rep', hRun, hNext⟩ := hSound.join hEdge.1 hEdge.2
  exact ⟨uf', hRun, rep', hNext⟩

theorem run_step (hEdges : ∀ e ∈ edges, e.1 ∈ ints ∧ e.2 ∈ ints) :
    ∃ uf, run step {} edges = some uf ∧ FindsComponents ints edges uf.find_parent ∧
      ((∃ e ∈ edges, e.1 ≠ e.2) →
        (uf.largest_CC.toInt = largest ints edges ↔ largest ints edges < 2 ^ 31)) := by
  obtain ⟨uf, hRun, rep, h⟩ := run_sound hEdges
  exact ⟨uf, hRun, findsComponents h.tracks.represents fun u _ => h.find_parent_eq u,
    h.largest_CC_iff hEdges⟩

end UnionFind_Map

section Overflow

/-- Edges from 0 to each of the next `n` nodes. -/
def star (n : Nat) : List (Int × Int) :=
  (List.range n).map fun i : Nat => (0, (i : Int) + 1)

theorem star_ends {n : Nat} (hn : n < 2 ^ 31) {e : Int × Int} (he : e ∈ star n) :
    e.1 ∈ ints ∧ e.2 ∈ ints := by
  obtain ⟨i, hi, rfl⟩ := List.mem_map.mp he
  have hLt := List.mem_range.mp hi
  exact ⟨UnionFind_Map.zero_mem_ints, mem_ints.mpr ⟨by omega, by omega⟩⟩

theorem lt_largest_star {n : Nat} (hn : n < 2 ^ 31) {rep : Int → Int}
    (h : Represents rep (star n)) (hNodes : ∀ a ∈ ints, rep a ∈ ints) :
    n < largest ints (star n) := by
  have hConnected : ∀ i ∈ Finset.range (n + 1), rep i = rep 0 := by
    intro i hi
    refine (h.eq_iff i 0).mpr ?_
    cases i with
    | zero => exact Connected.refl 0
    | succ i =>
        have hLt : i < n := Nat.lt_of_succ_lt_succ (Finset.mem_range.mp hi)
        have hEdge : (0, ((i + 1 : Nat) : Int)) ∈ star n :=
          List.mem_map.mpr ⟨i, List.mem_range.mpr hLt, by rw [Nat.cast_succ]⟩
        exact (Connected.of_mem hEdge).symm
  have hSubset : (Finset.range (n + 1)).image Nat.cast ⊆ members ints rep (rep 0) := by
    intro a ha
    obtain ⟨i, hi, rfl⟩ := Finset.mem_image.mp ha
    have hLt := Finset.mem_range.mp hi
    exact mem_members.mpr ⟨mem_ints.mpr ⟨by omega, by omega⟩, hConnected i hi⟩
  have hCard := Finset.card_le_card hSubset
  rw [Finset.card_image_of_injective _ Nat.cast_injective, Finset.card_range] at hCard
  have hHead : rep 0 ∈ heads ints rep :=
    mem_heads.mpr ⟨hNodes 0 UnionFind_Map.zero_mem_ints, h.idem 0⟩
  rw [h.largest_eq hNodes]
  exact Nat.lt_of_succ_le (hCard.trans (card_members_le_sup hHead))

end Overflow
end CppPerf.Graphs
