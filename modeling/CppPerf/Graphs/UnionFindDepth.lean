import CppPerf.Graphs.UnionFindConnected
import Mathlib.Data.Nat.Log

/-! How many parent links a search follows. Where the smaller class goes below
the larger one, it is at most the logarithm of the size of the class. -/
namespace CppPerf.Graphs

open Forest Indexed Ordered Partition Transition

/-- The links that `followParents` goes through. -/
def linksFollowed (nodes : Nat) (parent : Nat → Option Nat) : Nat → Nat → Option Nat
  | 0, _ => none
  | rounds + 1, u =>
      if u < nodes then
        match parent u with
        | none => some 0
        | some p => (linksFollowed nodes parent rounds p).map Nat.succ
      else none

/-- Every search ends, after at most the logarithm of the size of the class. -/
def FindsShallow (nodes : Finset Nat) (edges : List (Nat × Nat)) (links : Nat → Option Nat) :
    Prop :=
  ∀ u ∈ nodes, ∃ d, links u = some d ∧ d ≤ Nat.log 2 (component nodes edges u).card

theorem linksFollowed_eq {nodes : Nat} {parent : Nat → Option Nat}
    (hClosed : ∀ a b, parent a = some b → b ∈ Finset.range nodes) (rounds : Nat) {u : Nat}
    (hu : u ∈ Finset.range nodes) :
    linksFollowed nodes parent rounds u = depth parent rounds u := by
  induction rounds generalizing u with
  | zero => rfl
  | succ rounds ih =>
      rw [linksFollowed, depth, if_pos (Finset.mem_range.mp hu)]
      cases hUp : parent u with
      | none => rfl
      | some p => exact congrArg (Option.map Nat.succ) (ih (hClosed u p hUp))

/-- The trees are the classes, and a class of `n` nodes has no node that is deeper
than the logarithm of `n`. -/
def ShallowForest (nodes : Finset Nat) (up : Nat → Option Nat) (rep : Nat → Nat)
    (edges : List (Nat × Nat)) : Prop :=
  ∃ links, Tracks nodes up links rep edges ∧ Shallow nodes up links rep

namespace ShallowForest

variable {nodes : Finset Nat} {up : Nat → Option Nat} {rep : Nat → Nat} {edges : List (Nat × Nat)}
  {p q u v : Nat}

theorem start (nodes : Finset Nat) : ShallowForest nodes (fun _ => none) id [] :=
  ⟨0, Tracks.start nodes, Shallow.start⟩

theorem same (h : ShallowForest nodes up rep edges) (hSame : rep u = rep v) :
    ShallowForest nodes up rep (edges ++ [(u, v)]) := by
  obtain ⟨links, hTracks, hShallow⟩ := h
  exact ⟨links, hTracks.same hSame, hShallow⟩

theorem link (h : ShallowForest nodes up rep edges) (hp : p ∈ heads nodes rep)
    (hq : q ∈ heads nodes rep) (hNe : p ≠ q)
    (hEnds : p = rep u ∧ q = rep v ∨ p = rep v ∧ q = rep u)
    (hLe : (members nodes rep p).card ≤ (members nodes rep q).card) :
    ShallowForest nodes (Function.update up p (some q)) (merge rep p q) (edges ++ [(u, v)]) := by
  obtain ⟨links, hTracks, hShallow⟩ := h
  exact ⟨links + 1, hTracks.link hp hq hNe hEnds, hShallow.link hTracks.rooted hp hq hNe hLe⟩

theorem findsShallow {N : Nat} (h : ShallowForest (Finset.range N) up rep edges) :
    FindsShallow (Finset.range N) edges (linksFollowed N up (N + 1)) := by
  obtain ⟨links, hTracks, hShallow⟩ := h
  intro u hu
  obtain ⟨d, hDepth, hSize⟩ := hShallow u hu
  have hLe := hTracks.links_le
  rw [Finset.card_range] at hLe
  rw [hTracks.represents.members_eq] at hSize
  refine ⟨d, ?_, Nat.le_log_of_pow_le Nat.one_lt_two hSize⟩
  rw [linksFollowed_eq hTracks.closed _ hu]
  exact depth_mono (by omega) hDepth

/-- A union by weight, which puts the lighter root below the other one. -/
theorem join {State : Type*} {weight : Nat → Nat} (h : ShallowForest nodes up rep edges)
    (hWeighs : Weighs nodes rep weight) (hu : u ∈ nodes) (hv : v ∈ nodes) (s : State)
    (linked : Nat → Nat → State) (Next : State → (Nat → Nat) → Prop)
    (hSame : rep u = rep v → Next s rep)
    (hLink : ∀ p q, p ∈ heads nodes rep → q ∈ heads nodes rep → p ≠ q →
      (p = rep u ∧ q = rep v ∨ p = rep v ∧ q = rep u) →
      ShallowForest nodes (Function.update up p (some q)) (merge rep p q) (edges ++ [(u, v)]) →
      Next (linked p q) (merge rep p q)) :
    ∃ joined t rep',
      (if rep u = rep v then some (false, s)
        else if weight (rep v) < weight (rep u) then some (true, linked (rep v) (rep u))
        else some (true, linked (rep u) (rep v))) = some (joined, t) ∧ Next t rep' := by
  obtain ⟨links, hTracks, hShallow⟩ := h
  rcases hTracks.join_cases hu hv s linked (weight (rep v) < weight (rep u)) with
    ⟨hEq, hOutcome⟩ | ⟨p, q, hp, hq, hNe, hEnds, hOutcome⟩
  · exact ⟨false, s, rep, hOutcome, hSame hEq⟩
  · have hLe : weight p ≤ weight q := by
      rcases hEnds with ⟨rfl, rfl, hNot⟩ | ⟨rfl, rfl, hLt⟩
      · exact Nat.not_lt.mp hNot
      · exact Nat.le_of_lt hLt
    rw [hWeighs p hp, hWeighs q hq] at hLe
    have hEnds : p = rep u ∧ q = rep v ∨ p = rep v ∧ q = rep u :=
      hEnds.imp (fun e => ⟨e.1, e.2.1⟩) fun e => ⟨e.1, e.2.1⟩
    exact ⟨true, _, _, hOutcome, hLink p q hp hq hNe hEnds
      (ShallowForest.link ⟨links, hTracks, hShallow⟩ hp hq hNe hEnds hLe)⟩

end ShallowForest

/-- The edges of a run are given one after the other. -/
theorem run_shallow {State : Type*} {nodes : Finset Nat}
    {union : State → Nat → Nat → Option (Bool × State)}
    {R : State → List (Nat × Nat) → Prop} {start : State} (hStart : R start [])
    (hUnion : ∀ s edges, R s edges → ∀ u ∈ nodes, ∀ v ∈ nodes,
      ∃ joined t, union s u v = some (joined, t) ∧ R t (edges ++ [(u, v)]))
    {edges : List (Nat × Nat)} (hEdges : ∀ e ∈ edges, e.1 ∈ nodes ∧ e.2 ∈ nodes) :
    ∃ s, run (fun s e => (union s e.1 e.2).map Prod.snd) start edges = some s ∧ R s edges := by
  refine run_of_history (fun s seen e hR hEdge => ?_) hStart hEdges
  obtain ⟨joined, t, hRun, hNext⟩ := hUnion s seen hR e.1 hEdge.1 e.2 hEdge.2
  exact ⟨t, by rw [hRun]; rfl, hNext⟩

namespace UnionFindSimple

/-- The links that `find` follows. -/
def linksToRoot (uf : UnionFindSimple) (u : Nat) : Option Nat :=
  linksFollowed uf.parent.size uf.parentOf (uf.parent.size + 1) u

/-- Two classes are joined only if the first end is in one that is not the
larger one. -/
def SmallerFirst (nodes : Finset Nat) (edges : List (Nat × Nat)) : Prop :=
  ∀ front u v back, edges = front ++ (u, v) :: back → ¬Connected front u v →
    (component nodes front u).card ≤ (component nodes front v).card

variable {uf : UnionFindSimple} {N u v : Nat} {rep : Nat → Nat} {edges : List (Nat × Nat)}

/-- No size is ever above 0. -/
structure Unweighted (N : Nat) (uf : UnionFindSimple) (rep : Nat → Nat)
    (edges : List (Nat × Nat)) : Prop extends Sound N uf rep edges where
  size_zero : ∀ a, uf.size.get a = 0
  shallow : ShallowForest (Finset.range N) uf.parentOf rep edges

theorem construct_unweighted (N : Nat) : Unweighted N (construct N) id [] where
  toSound := construct_sound N
  size_zero _ := rfl
  shallow := by
    have hRoots : (construct N).parentOf = fun _ => none := by
      funext u
      exact if_neg (not_not.mpr rfl)
    rw [hRoots]
    exact ShallowForest.start _

namespace Unweighted

theorem findsShallow (h : Unweighted N uf rep edges) :
    FindsShallow (Finset.range N) edges uf.linksToRoot := by
  unfold linksToRoot
  rw [h.size_parent]
  exact h.shallow.findsShallow

/-- The first root goes below the second one, whatever the classes are. -/
theorem add_edge (h : Unweighted N uf rep edges) (hu : u ∈ Finset.range N)
    (hv : v ∈ Finset.range N) (hFirst : ¬Connected edges u v →
      (component (Finset.range N) edges u).card ≤ (component (Finset.range N) edges v).card) :
    ∃ joined uf' rep', uf.add_edge (u + 1) (v + 1) = some (joined, uf') ∧
      Unweighted N uf' rep' (edges ++ [(u, v)]) := by
  have hRun : uf.add_edge (u + 1) (v + 1) =
      if rep u = rep v then some (false, uf)
      else if uf.size.get (rep v) < uf.size.get (rep u) then some (true, uf.link (rep v) (rep u))
      else some (true, uf.link (rep u) (rep v)) := by
    rw [UnionFindSimple.add_edge, Nat.ppred_succ, Nat.ppred_succ, Option.bind_some,
      Option.bind_some, h.find_eq hu, h.find_eq hv, Option.bind_some, Option.bind_some, ite_not]
  rcases h.tracks.join_cases hu hv uf uf.link (uf.size.get (rep v) < uf.size.get (rep u)) with
    ⟨hEq, hOutcome⟩ | ⟨p, q, hp, hq, hNe, hEnds, hOutcome⟩
  · exact ⟨false, uf, rep, hRun.trans hOutcome,
      ⟨⟨h.size_parent, h.tracks.same hEq⟩, h.size_zero, h.shallow.same hEq⟩⟩
  · obtain ⟨rfl, rfl⟩ : p = rep u ∧ q = rep v := by
      rcases hEnds with ⟨hpu, hqv, -⟩ | ⟨-, -, hSwapped⟩
      · exact ⟨hpu, hqv⟩
      · rw [h.size_zero, h.size_zero] at hSwapped
        exact absurd hSwapped (Nat.lt_irrefl 0)
    have hApart : ¬Connected edges u v := fun hConnected =>
      hNe ((h.tracks.represents.eq_iff u v).mpr hConnected)
    have hLe := hFirst hApart
    rw [← h.tracks.represents.members_eq, ← h.tracks.represents.members_eq] at hLe
    have hEnds : rep u = rep u ∧ rep v = rep v ∨ rep u = rep v ∧ rep v = rep u :=
      Or.inl ⟨rfl, rfl⟩
    refine ⟨true, _, _, hRun.trans hOutcome, h.toSound.link hp hq hNe hEnds, ?_, ?_⟩
    · intro a
      rw [link, Vec.get_set]
      split_ifs
      · rw [h.size_zero, h.size_zero]
      · exact h.size_zero a
    · rw [parentOf_link hNe (h.tracks.mem_heads_iff.mp hq).2]
      exact h.shallow.link hp hq hNe hEnds hLe

end Unweighted

theorem run_unweighted (N : Nat) {edges : List (Nat × Nat)}
    (hEdges : ∀ e ∈ edges, e.1 ∈ Finset.range N ∧ e.2 ∈ Finset.range N)
    (hFirst : SmallerFirst (Finset.range N) edges) :
    ∃ uf, run step (construct N) edges = some uf ∧ ∃ rep, Unweighted N uf rep edges := by
  induction edges using List.reverseRecOn with
  | nil => exact ⟨construct N, rfl, id, construct_unweighted N⟩
  | append_singleton seen e ih =>
      obtain ⟨uf, hRun, rep, h⟩ := ih (fun e he => hEdges e (List.mem_append_left _ he))
        fun front u v back hSplit => hFirst front u v (back ++ [e]) (by rw [hSplit]; simp)
      obtain ⟨hu, hv⟩ := hEdges e (List.mem_append_right _ (List.mem_singleton_self e))
      obtain ⟨joined, uf', rep', hNext, hKeep⟩ := h.add_edge hu hv (hFirst seen e.1 e.2 [] rfl)
      refine ⟨uf', ?_, rep', hKeep⟩
      rw [run_append, hRun, Option.bind_some, run_cons, step, hNext]
      rfl

end UnionFindSimple

namespace UnionFind

/-- The links that `find` follows. -/
def linksToRoot (uf : UnionFind) (u : Nat) : Option Nat :=
  linksFollowed uf.parents.size (parentIn uf.parents) (uf.parents.size + 1) u

variable {uf : UnionFind} {N u v : Nat} {rep : Nat → Nat} {edges : List (Nat × Nat)}

structure Balanced (N : Nat) (uf : UnionFind) (rep : Nat → Nat) (edges : List (Nat × Nat)) :
    Prop extends Sound N uf rep edges where
  shallow : ShallowForest (Finset.range (N + 1)) (parentIn uf.parents) rep edges

theorem construct_balanced (N : Nat) : Balanced N (construct N) id [] where
  toSound := construct_sound N
  shallow := by
    rw [construct, parentIn_roots]
    exact ShallowForest.start _

namespace Balanced

theorem update_count (h : Balanced N uf rep edges) (u : Nat) :
    Balanced N (uf.update_count u) rep edges where
  toSound := h.toSound.update_count u
  shallow := by
    rw [UnionFind.update_count]
    split_ifs
    · exact h.shallow
    · exact h.shallow

theorem union_ (h : Balanced N uf rep edges) (hu : u ∈ Finset.range (N + 1))
    (hv : v ∈ Finset.range (N + 1)) :
    ∃ joined uf' rep', uf.union_ u v = some (joined, uf') ∧
      Balanced N uf' rep' (edges ++ [(u, v)]) := by
  have hCounted := (h.update_count u).update_count v
  rw [UnionFind.union_]
  generalize (uf.update_count u).update_count v = uf at hCounted
  obtain ⟨joined, uf', rep', hRun, hNext⟩ := hCounted.shallow.join hCounted.weighs hu hv uf uf.link
    (fun t rep => Balanced N t rep (edges ++ [(u, v)]))
    (fun hSame => by
      obtain ⟨links, hTracks⟩ := hCounted.tracks
      exact ⟨⟨hCounted.size_parents, hCounted.size_size, ⟨links, hTracks.same hSame⟩,
        hCounted.weighs, hCounted.bounded⟩, hCounted.shallow.same hSame⟩)
    (fun p q hp hq hNe hEnds hShallow =>
      ⟨hCounted.toSound.link hp hq hNe hEnds, by rwa [link, parentIn_set]⟩)
  refine ⟨joined, uf', rep', ?_, hNext⟩
  rw [hCounted.find_eq hu, hCounted.find_eq hv, Option.bind_some, Option.bind_some]
  exact hRun

theorem findsShallow (h : Balanced N uf rep edges) :
    FindsShallow (Finset.range (N + 1)) edges uf.linksToRoot := by
  unfold linksToRoot
  rw [h.size_parents]
  exact h.shallow.findsShallow

end Balanced

theorem run_balanced (N : Nat) {edges : List (Nat × Nat)}
    (hEdges : ∀ e ∈ edges, e.1 ∈ Finset.range (N + 1) ∧ e.2 ∈ Finset.range (N + 1)) :
    ∃ uf, run step (construct N) edges = some uf ∧ ∃ rep, Balanced N uf rep edges := by
  refine run_shallow (R := fun s seen => ∃ rep, Balanced N s rep seen)
    ⟨id, construct_balanced N⟩ (fun s seen hR u hu v hv => ?_) hEdges
  obtain ⟨rep, h⟩ := hR
  obtain ⟨joined, t, rep', hRun, hNext⟩ := h.union_ hu hv
  exact ⟨joined, t, hRun, rep', hNext⟩

end UnionFind

namespace UnionFind3

/-- The links that `find` follows. -/
def linksToRoot (uf : UnionFind3) (u : Nat) : Option Nat :=
  linksFollowed uf.parents.size (parentIn uf.parents) (uf.parents.size + 1) u

variable {uf : UnionFind3} {N u v : Nat} {rep : Nat → Nat} {edges : List (Nat × Nat)}

structure Balanced (N : Nat) (uf : UnionFind3) (rep : Nat → Nat) (edges : List (Nat × Nat)) :
    Prop extends Sound N uf rep edges where
  shallow : ShallowForest (Finset.range N) (parentIn uf.parents) rep edges

theorem construct_balanced (N : Nat) : Balanced N (construct N) id [] where
  toSound := construct_sound N
  shallow := by
    rw [construct, parentIn_roots]
    exact ShallowForest.start _

namespace Balanced

theorem connect (h : Balanced N uf rep edges) (hu : u ∈ Finset.range N)
    (hv : v ∈ Finset.range N) :
    ∃ joined uf' rep', uf.connect u v = some (joined, uf') ∧
      Balanced N uf' rep' (edges ++ [(u, v)]) := by
  obtain ⟨joined, uf', rep', hRun, hNext⟩ := h.shallow.join h.weighs hu hv uf uf.link
    (fun t rep => Balanced N t rep (edges ++ [(u, v)]))
    (fun hSame => by
      obtain ⟨links, hTracks⟩ := h.tracks
      exact ⟨⟨h.size_parents, h.size_size, ⟨links, hTracks.same hSame⟩, h.weighs, h.erased⟩,
        h.shallow.same hSame⟩)
    (fun p q hp hq hNe hEnds hShallow =>
      ⟨h.toSound.link hp hq hNe hEnds, by rwa [link, parentIn_set]⟩)
  refine ⟨joined, uf', rep', ?_, hNext⟩
  rw [UnionFind3.connect, h.find_eq hu, h.find_eq hv, Option.bind_some, Option.bind_some]
  exact hRun

theorem findsShallow (h : Balanced N uf rep edges) :
    FindsShallow (Finset.range N) edges uf.linksToRoot := by
  unfold linksToRoot
  rw [h.size_parents]
  exact h.shallow.findsShallow

end Balanced

theorem run_balanced (N : Nat) {edges : List (Nat × Nat)}
    (hEdges : ∀ e ∈ edges, e.1 ∈ Finset.range N ∧ e.2 ∈ Finset.range N) :
    ∃ uf, run step (construct N) edges = some uf ∧ ∃ rep, Balanced N uf rep edges := by
  refine run_shallow (R := fun s seen => ∃ rep, Balanced N s rep seen)
    ⟨id, construct_balanced N⟩ (fun s seen hR u hu v hv => ?_) hEdges
  obtain ⟨rep, h⟩ := hR
  obtain ⟨joined, t, rep', hRun, hNext⟩ := h.connect hu hv
  exact ⟨joined, t, hRun, rep', hNext⟩

end UnionFind3

end CppPerf.Graphs
