import CppPerf.Graphs.UnionFind
import CppPerf.Semantics.Forest
import CppPerf.Semantics.Run

/-! Each union-find class keeps a forest whose trees are the components of the
edges given. The nodes of an array are its indices. -/
namespace CppPerf.Graphs

open Forest Indexed Ordered Partition Transition

theorem followParents_eq {nodes : Nat} {parent : Nat → Option Nat}
    (hClosed : ∀ a b, parent a = some b → b ∈ Finset.range nodes) (rounds : Nat) {u : Nat}
    (hu : u ∈ Finset.range nodes) :
    followParents nodes parent rounds u = climb parent rounds u := by
  induction rounds generalizing u with
  | zero => rfl
  | succ rounds ih =>
      rw [followParents, climb, if_pos (Finset.mem_range.mp hu)]
      cases hUp : parent u with
      | none => rfl
      | some p => exact ih (hClosed u p hUp)

/-- More rounds than nodes are enough. -/
theorem followParents_spec {nodes links : Nat} {parent : Nat → Option Nat} {rep : Nat → Nat}
    {edges : List (Nat × Nat)} (h : Tracks (Finset.range nodes) parent links rep edges) {u : Nat}
    (hu : u ∈ Finset.range nodes) :
    followParents nodes parent (nodes + 1) u = some (rep u) := by
  rw [followParents_eq h.closed _ hu]
  have hLe := h.links_le
  rw [Finset.card_range] at hLe
  exact h.rooted.climb_eq (Nat.lt_succ_of_le hLe) u

section Specification

variable {α : Type*}

/-- Every search ends, and two searches find the same node if and only if theirs
are connected. -/
def FindsComponents (nodes : Finset α) (edges : List (α × α)) (find : α → Option α) : Prop :=
  ∀ u ∈ nodes, ∀ v ∈ nodes, ∃ p q, find u = some p ∧ find v = some q ∧
    (p = q ↔ Connected edges u v)

/-- A union returns false if and only if its ends are connected already. -/
def ReportsJoins {State : Type*} (nodes : Finset α) (edges : List (α × α))
    (union : α → α → Option (Bool × State)) : Prop :=
  ∀ u ∈ nodes, ∀ v ∈ nodes, ∃ joined next, union u v = some (joined, next) ∧
    (joined = false ↔ Connected edges u v)

theorem findsComponents {nodes : Finset α} {edges : List (α × α)} {find : α → Option α}
    {rep : α → α} (h : Represents rep edges) (hFind : ∀ u ∈ nodes, find u = some (rep u)) :
    FindsComponents nodes edges find := fun u hu v hv =>
  ⟨rep u, rep v, hFind u hu, hFind v hv, h.eq_iff u v⟩

/-- A union that relates the next state to one more edge. -/
theorem reportsJoins {State : Type*} {nodes : Finset α} {edges : List (α × α)}
    {union : α → α → Option (Bool × State)} {Next : State → (α → α) → List (α × α) → Prop}
    (h : ∀ u ∈ nodes, ∀ v ∈ nodes, ∃ joined t rep, union u v = some (joined, t) ∧
      (joined = false ↔ Connected edges u v) ∧ Next t rep (edges ++ [(u, v)])) :
    ReportsJoins nodes edges union := by
  intro u hu v hv
  obtain ⟨joined, t, _, hRun, hJoined, _⟩ := h u hu v hv
  exact ⟨joined, t, hRun, hJoined⟩

/-- The edges of a run are given one after the other. -/
theorem run_sound {State : Type*} {nodes : Finset α}
    (union : State → α → α → Option (Bool × State))
    {Sound : State → (α → α) → List (α × α) → Prop} {start : State} {rep : α → α}
    (hStart : Sound start rep [])
    (hUnion : ∀ s rep edges, Sound s rep edges → ∀ u ∈ nodes, ∀ v ∈ nodes,
      ∃ joined t rep', union s u v = some (joined, t) ∧
        (joined = false ↔ Connected edges u v) ∧ Sound t rep' (edges ++ [(u, v)]))
    {edges : List (α × α)} (hEdges : ∀ e ∈ edges, e.1 ∈ nodes ∧ e.2 ∈ nodes) :
    ∃ s, run (fun s e => (union s e.1 e.2).map Prod.snd) start edges = some s ∧
      ∃ rep, Sound s rep edges := by
  refine run_of_history (R := fun s seen => ∃ rep, Sound s rep seen)
    (fun s seen e hSound hEdge => ?_) ⟨rep, hStart⟩ hEdges
  obtain ⟨rep, hSound⟩ := hSound
  obtain ⟨joined, t, rep', hRun, -, hNext⟩ := hUnion s rep seen hSound e.1 hEdge.1 e.2 hEdge.2
  exact ⟨t, by rw [hRun]; rfl, rep', hNext⟩

end Specification

namespace UnionFindSimple

variable {uf : UnionFindSimple} {N u v p q : Nat} {rep : Nat → Nat} {edges : List (Nat × Nat)}

structure Sound (N : Nat) (uf : UnionFindSimple) (rep : Nat → Nat) (edges : List (Nat × Nat)) :
    Prop where
  size_parent : uf.parent.size = N
  tracks : Tracks (Finset.range N) uf.parentOf uf.union_count rep edges

theorem construct_sound (N : Nat) : Sound N (construct N) id [] where
  size_parent := rfl
  tracks := by
    have hRoots : (construct N).parentOf = fun _ => none := by
      funext u
      exact if_neg (not_not.mpr rfl)
    rw [hRoots]
    exact Tracks.start _

theorem parentOf_eq_none : uf.parentOf u = none ↔ uf.parent.get u = u := by
  rw [parentOf]
  split_ifs with h <;> simp_all

theorem parentOf_link (hNe : p ≠ q) (hq : uf.parentOf q = none) :
    (uf.link p q).parentOf = Function.update uf.parentOf p (some q) := by
  funext a
  rw [parentOf_eq_none] at hq
  rw [parentOf, link, hq, Vec.get_set, Function.update_apply]
  split_ifs with hEq
  · rfl
  · exact absurd (hEq ▸ hNe.symm) ‹_›
  · rw [parentOf, if_pos ‹_›]
  · rw [parentOf, if_neg ‹_›]

namespace Sound

theorem find_eq (h : Sound N uf rep edges) (hu : u ∈ Finset.range N) :
    uf.find u = some (rep u) := by
  rw [find, h.size_parent]
  exact followParents_spec h.tracks hu

theorem link (h : Sound N uf rep edges) (hp : p ∈ heads (Finset.range N) rep)
    (hq : q ∈ heads (Finset.range N) rep) (hNe : p ≠ q)
    (hEnds : p = rep u ∧ q = rep v ∨ p = rep v ∧ q = rep u) :
    Sound N (uf.link p q) (merge rep p q) (edges ++ [(u, v)]) where
  size_parent := h.size_parent
  tracks := by
    rw [parentOf_link hNe (h.tracks.mem_heads_iff.mp hq).2]
    exact h.tracks.link hp hq hNe hEnds

theorem add_edge (h : Sound N uf rep edges) (hu : u ∈ Finset.range N) (hv : v ∈ Finset.range N) :
    ∃ joined uf' rep', uf.add_edge (u + 1) (v + 1) = some (joined, uf') ∧
      (joined = false ↔ Connected edges u v) ∧ Sound N uf' rep' (edges ++ [(u, v)]) := by
  obtain ⟨joined, uf', rep', hRun, hJoined, hNext⟩ := h.tracks.join hu hv uf uf.link
    (fun t rep => Sound N t rep (edges ++ [(u, v)]))
    (fun hSame => ⟨h.size_parent, h.tracks.same hSame⟩)
    (fun p q hp hq hNe hEnds => h.link hp hq hNe hEnds)
    (uf.size.get (rep v) < uf.size.get (rep u))
  refine ⟨joined, uf', rep', ?_, hJoined, hNext⟩
  rw [UnionFindSimple.add_edge, Nat.ppred_succ, Nat.ppred_succ, Option.bind_some,
    Option.bind_some, h.find_eq hu, h.find_eq hv, Option.bind_some, Option.bind_some, ite_not]
  exact hRun

theorem components_eq (h : Sound N uf rep edges) :
    uf.components = (classes (Finset.range N) edges).card := by
  have hCard := h.tracks.card_heads
  rw [Finset.card_range] at hCard
  rw [components, h.size_parent,
    h.tracks.represents.card_classes fun a ha => h.tracks.rep_mem ha]
  omega

end Sound

/-- An edge between nodes that are counted from 0. -/
def step (uf : UnionFindSimple) (e : Nat × Nat) : Option UnionFindSimple :=
  (uf.add_edge (e.1 + 1) (e.2 + 1)).map Prod.snd

theorem run_step (N : Nat) {edges : List (Nat × Nat)}
    (hEdges : ∀ e ∈ edges, e.1 ∈ Finset.range N ∧ e.2 ∈ Finset.range N) :
    ∃ uf, run step (construct N) edges = some uf ∧
      FindsComponents (Finset.range N) edges uf.find ∧
      ReportsJoins (Finset.range N) edges (fun u v => uf.add_edge (u + 1) (v + 1)) ∧
      uf.components = (classes (Finset.range N) edges).card := by
  obtain ⟨uf, hRun, rep, h⟩ := run_sound (fun uf u v => uf.add_edge (u + 1) (v + 1))
    (construct_sound N) (fun _ _ _ h _ hu _ hv => h.add_edge hu hv) hEdges
  exact ⟨uf, hRun, findsComponents h.tracks.represents fun _ hu => h.find_eq hu,
    reportsJoins fun _ hu _ hv => h.add_edge hu hv, h.components_eq⟩

end UnionFindSimple

section ParentIn

variable {parents : Vec Int} {p q u : Nat}

theorem parentIn_set (p q : Nat) :
    parentIn (parents.set p q) = Function.update (parentIn parents) p (some q) := by
  funext a
  rw [Function.update_apply, parentIn, Vec.get_set]
  split_ifs with hEq hNeg hNeg
  · exact absurd hNeg (Int.not_lt.mpr (Int.natCast_nonneg q))
  · rw [Int.toNat_natCast]
  · rw [parentIn, if_pos hNeg]
  · rw [parentIn, if_neg hNeg]

theorem parentIn_roots (N : Nat) : parentIn ⟨N, fun _ => -1⟩ = fun _ => none := by
  funext u
  exact if_pos (show (-1 : Int) < 0 by decide)

end ParentIn

namespace UnionFind

variable {uf : UnionFind} {N u v p q : Nat} {rep : Nat → Nat} {edges : List (Nat × Nat)}

/-- A node that is no longer a root keeps the size that its tree had. -/
structure Sound (N : Nat) (uf : UnionFind) (rep : Nat → Nat) (edges : List (Nat × Nat)) :
    Prop where
  size_parents : uf.parents.size = N + 1
  size_size : uf.size.size = N + 1
  tracks : ∃ links, Tracks (Finset.range (N + 1)) (parentIn uf.parents) links rep edges
  weighs : Weighs (Finset.range (N + 1)) rep uf.size.get
  bounded : ∀ a ∈ Finset.range (N + 1),
    uf.size.get a ≤ (members (Finset.range (N + 1)) rep (rep a)).card

theorem construct_sound (N : Nat) : Sound N (construct N) id [] where
  size_parents := rfl
  size_size := rfl
  tracks := ⟨0, by
    rw [construct, parentIn_roots]
    exact Tracks.start _⟩
  weighs r hr := by
    rw [members_id (mem_heads.mp hr).1]
    rfl
  bounded a ha := by
    rw [id, members_id ha]
    rfl

namespace Sound

theorem find_eq (h : Sound N uf rep edges) (hu : u ∈ Finset.range (N + 1)) :
    uf.find u = some (rep u) := by
  obtain ⟨links, hTracks⟩ := h.tracks
  rw [find, h.size_parents]
  exact followParents_spec hTracks hu

theorem update_count (h : Sound N uf rep edges) (u : Nat) :
    Sound N (uf.update_count u) rep edges := by
  rw [UnionFind.update_count]
  split_ifs
  · exact h
  · exact ⟨h.size_parents, h.size_size, h.tracks, h.weighs, h.bounded⟩

theorem link (h : Sound N uf rep edges) (hp : p ∈ heads (Finset.range (N + 1)) rep)
    (hq : q ∈ heads (Finset.range (N + 1)) rep) (hNe : p ≠ q)
    (hEnds : p = rep u ∧ q = rep v ∨ p = rep v ∧ q = rep u) :
    Sound N (uf.link p q) (merge rep p q) (edges ++ [(u, v)]) where
  size_parents := h.size_parents
  size_size := h.size_size
  tracks := by
    obtain ⟨links, hTracks⟩ := h.tracks
    refine ⟨links + 1, ?_⟩
    rw [UnionFind.link, parentIn_set]
    exact hTracks.link hp hq hNe hEnds
  weighs := h.weighs.merge hp hq hNe (Vec.get_set_self _ _ _) fun r _ hr => Vec.get_set_of_ne _ _ hr
  bounded a ha := by
    have hOld := h.bounded a ha
    by_cases hEq : a = q
    · have hSize : (uf.link p q).size.get q = uf.size.get q + uf.size.get p :=
        Vec.get_set_self _ _ _
      rw [hEq, merge, (mem_heads.mp hq).2, if_neg hNe.symm, card_members_merge_self hNe, hSize,
        h.weighs q hq, h.weighs p hp]
    · have hSize : (uf.link p q).size.get a = uf.size.get a := Vec.get_set_of_ne _ _ hEq
      rw [hSize, merge]
      split_ifs with hMoved
      · rw [card_members_merge_self hNe, ← hMoved]
        omega
      · by_cases hTo : rep a = q
        · rw [hTo, card_members_merge_self hNe, ← hTo]
          omega
        · rwa [members_merge_of_ne hMoved hTo]

theorem union_ (h : Sound N uf rep edges) (hu : u ∈ Finset.range (N + 1))
    (hv : v ∈ Finset.range (N + 1)) :
    ∃ joined uf' rep', uf.union_ u v = some (joined, uf') ∧
      (joined = false ↔ Connected edges u v) ∧ Sound N uf' rep' (edges ++ [(u, v)]) := by
  have hCounted := (h.update_count u).update_count v
  rw [UnionFind.union_]
  generalize (uf.update_count u).update_count v = uf at hCounted
  obtain ⟨links, hTracks⟩ := hCounted.tracks
  obtain ⟨joined, uf', rep', hRun, hJoined, hNext⟩ := hTracks.join hu hv uf uf.link
    (fun t rep => Sound N t rep (edges ++ [(u, v)]))
    (fun hSame => ⟨hCounted.size_parents, hCounted.size_size, ⟨links, hTracks.same hSame⟩,
      hCounted.weighs, hCounted.bounded⟩)
    (fun p q hp hq hNe hEnds => hCounted.link hp hq hNe hEnds)
    (uf.size.get (rep v) < uf.size.get (rep u))
  refine ⟨joined, uf', rep', ?_, hJoined, hNext⟩
  rw [hCounted.find_eq hu, hCounted.find_eq hv, Option.bind_some, Option.bind_some]
  exact hRun

theorem max_component_size_eq (h : Sound N uf rep edges) :
    uf.max_component_size = some (largest (Finset.range (N + 1)) edges) := by
  obtain ⟨links, hTracks⟩ := h.tracks
  have hNodes : ∀ a ∈ Finset.range (N + 1), rep a ∈ Finset.range (N + 1) := fun a ha =>
    hTracks.rep_mem ha
  rw [max_component_size, h.size_size, List.max?_eq_some_iff, hTracks.represents.largest_eq hNodes]
  constructor
  · obtain ⟨r, hr, hMax⟩ := Finset.exists_mem_eq_sup (heads (Finset.range (N + 1)) rep)
      ⟨_, hTracks.rep_mem_heads (Finset.mem_range.mpr (Nat.succ_pos N))⟩
      fun r => (members (Finset.range (N + 1)) rep r).card
    rw [hMax, ← h.weighs r hr]
    exact List.mem_map_of_mem (List.mem_range.mpr (Finset.mem_range.mp (mem_heads.mp hr).1))
  · intro s hs
    obtain ⟨a, ha, rfl⟩ := List.mem_map.mp hs
    have ha : a ∈ Finset.range (N + 1) := Finset.mem_range.mpr (List.mem_range.mp ha)
    exact (h.bounded a ha).trans (card_members_le_sup (hTracks.rep_mem_heads ha))

end Sound

def step (uf : UnionFind) (e : Nat × Nat) : Option UnionFind :=
  (uf.union_ e.1 e.2).map Prod.snd

theorem run_step (N : Nat) {edges : List (Nat × Nat)}
    (hEdges : ∀ e ∈ edges, e.1 ∈ Finset.range (N + 1) ∧ e.2 ∈ Finset.range (N + 1)) :
    ∃ uf, run step (construct N) edges = some uf ∧
      FindsComponents (Finset.range (N + 1)) edges uf.find ∧
      ReportsJoins (Finset.range (N + 1)) edges uf.union_ ∧
      uf.max_component_size = some (largest (Finset.range (N + 1)) edges) := by
  obtain ⟨uf, hRun, rep, h⟩ := run_sound UnionFind.union_ (construct_sound N)
    (fun _ _ _ h _ hu _ hv => h.union_ hu hv) hEdges
  obtain ⟨_, hTracks⟩ := h.tracks
  exact ⟨uf, hRun, findsComponents hTracks.represents fun _ hu => h.find_eq hu,
    reportsJoins fun _ hu _ hv => h.union_ hu hv, h.max_component_size_eq⟩

end UnionFind

namespace UnionFind3

variable {uf : UnionFind3} {N u v p q : Nat} {rep : Nat → Nat} {edges : List (Nat × Nat)}

/-- A node that is no longer a root has no size. -/
structure Sound (N : Nat) (uf : UnionFind3) (rep : Nat → Nat) (edges : List (Nat × Nat)) :
    Prop where
  size_parents : uf.parents.size = N
  size_size : uf.size.size = N
  tracks : ∃ links, Tracks (Finset.range N) (parentIn uf.parents) links rep edges
  weighs : Weighs (Finset.range N) rep uf.size.get
  erased : ∀ a ∈ Finset.range N, rep a ≠ a → uf.size.get a = 0

theorem construct_sound (N : Nat) : Sound N (construct N) id [] where
  size_parents := rfl
  size_size := rfl
  tracks := ⟨0, by
    rw [construct, parentIn_roots]
    exact Tracks.start _⟩
  weighs r hr := by
    rw [members_id (mem_heads.mp hr).1]
    rfl
  erased a _ h := absurd rfl h

namespace Sound

theorem find_eq (h : Sound N uf rep edges) (hu : u ∈ Finset.range N) :
    uf.find u = some (rep u) := by
  obtain ⟨links, hTracks⟩ := h.tracks
  rw [find, h.size_parents]
  exact followParents_spec hTracks hu

theorem link (h : Sound N uf rep edges) (hp : p ∈ heads (Finset.range N) rep)
    (hq : q ∈ heads (Finset.range N) rep) (hNe : p ≠ q)
    (hEnds : p = rep u ∧ q = rep v ∨ p = rep v ∧ q = rep u) :
    Sound N (uf.link p q) (merge rep p q) (edges ++ [(u, v)]) where
  size_parents := h.size_parents
  size_size := h.size_size
  tracks := by
    obtain ⟨links, hTracks⟩ := h.tracks
    refine ⟨links + 1, ?_⟩
    rw [UnionFind3.link, parentIn_set]
    exact hTracks.link hp hq hNe hEnds
  weighs := by
    refine h.weighs.merge hp hq hNe ?_ fun r hrp hrq => ?_
    · rw [UnionFind3.link, Vec.get_set_of_ne _ _ hNe.symm, Vec.get_set_self]
    · rw [UnionFind3.link, Vec.get_set_of_ne _ _ hrp, Vec.get_set_of_ne _ _ hrq]
  erased a ha hRep := by
    rw [UnionFind3.link, Vec.get_set]
    split_ifs with hErased
    · rfl
    · have hOther : a ≠ q := by
        rintro rfl
        rw [merge, (mem_heads.mp hq).2, if_neg hNe.symm] at hRep
        exact hRep rfl
      rw [Vec.get_set_of_ne _ _ hOther]
      refine h.erased a ha fun hSame => hRep ?_
      rw [merge, hSame, if_neg hErased]

theorem connect (h : Sound N uf rep edges) (hu : u ∈ Finset.range N) (hv : v ∈ Finset.range N) :
    ∃ joined uf' rep', uf.connect u v = some (joined, uf') ∧
      (joined = false ↔ Connected edges u v) ∧ Sound N uf' rep' (edges ++ [(u, v)]) := by
  obtain ⟨links, hTracks⟩ := h.tracks
  obtain ⟨joined, uf', rep', hRun, hJoined, hNext⟩ := hTracks.join hu hv uf uf.link
    (fun t rep => Sound N t rep (edges ++ [(u, v)]))
    (fun hSame => ⟨h.size_parents, h.size_size, ⟨links, hTracks.same hSame⟩, h.weighs, h.erased⟩)
    (fun p q hp hq hNe hEnds => h.link hp hq hNe hEnds)
    (uf.size.get (rep v) < uf.size.get (rep u))
  refine ⟨joined, uf', rep', ?_, hJoined, hNext⟩
  rw [UnionFind3.connect, h.find_eq hu, h.find_eq hv, Option.bind_some, Option.bind_some]
  exact hRun

theorem get_components_eq (h : Sound N uf rep edges) :
    (uf.get_components : Multiset Nat) = classSizes (Finset.range N) edges := by
  obtain ⟨links, hTracks⟩ := h.tracks
  have hHeads : ∀ a ∈ (Finset.range N).val, uf.size.get a ≠ 0 ↔ rep a = a := by
    intro a ha
    constructor
    · intro hSize
      by_contra hRep
      exact hSize (h.erased a ha hRep)
    · intro hRep
      have hHead : a ∈ heads (Finset.range N) rep := mem_heads.mpr ⟨ha, hRep⟩
      rw [h.weighs a hHead]
      exact (card_members_pos hHead).ne'
  rw [hTracks.represents.classSizes_eq fun a ha => hTracks.rep_mem ha, get_components,
    h.size_size, ← Multiset.filter_coe, ← Multiset.map_coe, Multiset.coe_range, Multiset.filter_map]
  refine (congrArg _ (Multiset.filter_congr hHeads)).trans ?_
  exact Multiset.map_congr rfl fun r hr => h.weighs r hr

end Sound

def step (uf : UnionFind3) (e : Nat × Nat) : Option UnionFind3 :=
  (uf.connect e.1 e.2).map Prod.snd

theorem run_step (N : Nat) {edges : List (Nat × Nat)}
    (hEdges : ∀ e ∈ edges, e.1 ∈ Finset.range N ∧ e.2 ∈ Finset.range N) :
    ∃ uf, run step (construct N) edges = some uf ∧
      FindsComponents (Finset.range N) edges uf.find ∧
      ReportsJoins (Finset.range N) edges uf.connect ∧
      (uf.get_components : Multiset Nat) = classSizes (Finset.range N) edges := by
  obtain ⟨uf, hRun, rep, h⟩ := run_sound UnionFind3.connect (construct_sound N)
    (fun _ _ _ h _ hu _ hv => h.connect hu hv) hEdges
  obtain ⟨_, hTracks⟩ := h.tracks
  exact ⟨uf, hRun, findsComponents hTracks.represents fun _ hu => h.find_eq hu,
    reportsJoins fun _ hu _ hv => h.connect hu hv, h.get_components_eq⟩

end UnionFind3
end CppPerf.Graphs
