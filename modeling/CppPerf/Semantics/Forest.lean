import CppPerf.Semantics.Partition
import Mathlib.Logic.Function.Basic

/-! Trees of parent links. Every node has a root, which the climb along the
links reaches within the rounds that are given. -/
namespace Forest

open Partition

variable {α : Type*}

/-- Follow the links; a node without one is its own root. -/
def climb (up : α → Option α) : Nat → α → Option α
  | 0, _ => none
  | rounds + 1, a =>
      match up a with
      | none => some a
      | some b => climb up rounds b

variable {up : α → Option α} {rounds : Nat} {a b r : α}

theorem climb_root (h : up a = none) : climb up (rounds + 1) a = some a := by
  rw [climb, h]

theorem climb_link (h : up a = some b) : climb up (rounds + 1) a = climb up rounds b := by
  rw [climb, h]

theorem root_of_climb (h : climb up rounds a = some r) : up r = none := by
  induction rounds generalizing a with
  | zero => cases h
  | succ rounds ih =>
      cases hUp : up a with
      | none =>
          rw [climb_root hUp] at h
          exact Option.some.inj h ▸ hUp
      | some b => exact ih (climb_link hUp ▸ h)

/-- More rounds do not change the root. -/
theorem climb_mono {more : Nat} (hLe : rounds ≤ more) (h : climb up rounds a = some r) :
    climb up more a = some r := by
  induction rounds generalizing a more with
  | zero => cases h
  | succ rounds ih =>
      obtain ⟨more, rfl⟩ : ∃ n, more = n + 1 := ⟨more - 1, by omega⟩
      cases hUp : up a with
      | none =>
          rw [climb_root hUp] at h ⊢
          exact h
      | some b =>
          rw [climb_link hUp] at h ⊢
          exact ih (by omega) h

/-- The number of links on the climb. -/
def depth (up : α → Option α) : Nat → α → Option Nat
  | 0, _ => none
  | rounds + 1, a =>
      match up a with
      | none => some 0
      | some b => (depth up rounds b).map Nat.succ

theorem depth_root (h : up a = none) : depth up (rounds + 1) a = some 0 := by
  rw [depth, h]

theorem depth_link (h : up a = some b) :
    depth up (rounds + 1) a = (depth up rounds b).map Nat.succ := by
  rw [depth, h]

theorem depth_mono {more d : Nat} (hLe : rounds ≤ more) (h : depth up rounds a = some d) :
    depth up more a = some d := by
  induction rounds generalizing a more d with
  | zero => cases h
  | succ rounds ih =>
      obtain ⟨more, rfl⟩ : ∃ n, more = n + 1 := ⟨more - 1, by omega⟩
      cases hUp : up a with
      | none =>
          rw [depth_root hUp] at h ⊢
          exact h
      | some b =>
          rw [depth_link hUp] at h ⊢
          obtain ⟨d', hRest, hSucc⟩ := Option.map_eq_some_iff.mp h
          rw [ih (by omega) hRest, Option.map_some, hSucc]

/-- The links are a forest of which `rep` gives the roots; `height` links lead to each of them. -/
def Rooted (up : α → Option α) (height : Nat) (rep : α → α) : Prop :=
  ∀ a, climb up (height + 1) a = some (rep a)

namespace Rooted

variable {height : Nat} {rep : α → α}

theorem start : Rooted (fun _ : α => none) 0 id := fun _ => rfl

theorem climb_eq (h : Rooted up height rep) (hRounds : height < rounds) (a : α) :
    climb up rounds a = some (rep a) := climb_mono hRounds (h a)

theorem up_rep (h : Rooted up height rep) (a : α) : up (rep a) = none := root_of_climb (h a)

theorem rep_of_root (h : Rooted up height rep) (hUp : up a = none) : rep a = a :=
  Option.some.inj ((h a).symm.trans (climb_root hUp))

theorem rep_eq_iff (h : Rooted up height rep) : rep a = a ↔ up a = none :=
  ⟨fun hEq => hEq ▸ h.up_rep a, h.rep_of_root⟩

variable [DecidableEq α] {p q : α}

theorem climb_update (hp : up p = none) (hq : up q = none) (hNe : p ≠ q)
    (h : climb up rounds a = some r) :
    climb (Function.update up p (some q)) (rounds + 1) a = some (if r = p then q else r) := by
  induction rounds generalizing a with
  | zero => cases h
  | succ rounds ih =>
      cases hUp : up a with
      | none =>
          obtain rfl : a = r := Option.some.inj ((climb_root hUp).symm.trans h)
          split_ifs with hEq
          · rw [hEq, climb_link (Function.update_self p _ up)]
            exact climb_root (by rw [Function.update_of_ne hNe.symm, hq])
          · exact climb_root (by rw [Function.update_of_ne hEq, hUp])
      | some b =>
          have hOther : a ≠ p := by
            rintro rfl
            rw [hp] at hUp
            cases hUp
          rw [climb_link (b := b) (by rw [Function.update_of_ne hOther, hUp])]
          exact ih (climb_link hUp ▸ h)

/-- A node of the tree that is linked is one link deeper. -/
theorem depth_update (hp : up p = none) (hq : up q = none) (hNe : p ≠ q)
    (h : climb up rounds a = some r) {d : Nat} (hDepth : depth up rounds a = some d) :
    depth (Function.update up p (some q)) (rounds + 1) a =
      some (if r = p then d + 1 else d) := by
  induction rounds generalizing a d with
  | zero => cases h
  | succ rounds ih =>
      cases hUp : up a with
      | none =>
          obtain rfl : a = r := Option.some.inj ((climb_root hUp).symm.trans h)
          obtain rfl : 0 = d := Option.some.inj ((depth_root hUp).symm.trans hDepth)
          split_ifs with hEq
          · rw [hEq, depth_link (Function.update_self p _ up),
              depth_root (by rw [Function.update_of_ne hNe.symm, hq])]
            rfl
          · exact depth_root (by rw [Function.update_of_ne hEq, hUp])
      | some b =>
          have hOther : a ≠ p := by
            rintro rfl
            rw [hp] at hUp
            cases hUp
          rw [depth_link hUp] at hDepth
          obtain ⟨d', hRest, rfl⟩ := Option.map_eq_some_iff.mp hDepth
          rw [depth_link (b := b) (by rw [Function.update_of_ne hOther, hUp]),
            ih (climb_link hUp ▸ h) hRest]
          split_ifs
          · rfl
          · rfl

/-- A link from one root to another merges their trees. -/
theorem link (h : Rooted up height rep) (hp : up p = none) (hq : up q = none) (hNe : p ≠ q) :
    Rooted (Function.update up p (some q)) (height + 1) (merge rep p q) :=
  fun a => climb_update hp hq hNe (h a)

end Rooted

/-- A forest whose trees are the components of the graph. -/
structure Tracks [DecidableEq α] (nodes : Finset α) (up : α → Option α) (links : Nat)
    (rep : α → α) (edges : List (α × α)) : Prop where
  rooted : Rooted up links rep
  represents : Represents rep edges
  closed : ∀ a b, up a = some b → b ∈ nodes
  card_heads : (heads nodes rep).card + links = nodes.card

namespace Tracks

variable [DecidableEq α] {nodes : Finset α} {links : Nat} {rep : α → α} {edges : List (α × α)}
  {p q u v : α}

theorem start (nodes : Finset α) : Tracks nodes (fun _ => none) 0 id [] where
  rooted := Rooted.start
  represents := Represents.start
  closed _ _ h := nomatch h
  card_heads := by simp [heads]

theorem links_le (h : Tracks nodes up links rep edges) : links ≤ nodes.card :=
  (Nat.le_add_left _ _).trans h.card_heads.le

theorem rep_mem (h : Tracks nodes up links rep edges) (ha : a ∈ nodes) : rep a ∈ nodes := by
  have hClimb : ∀ rounds a r, a ∈ nodes → climb up rounds a = some r → r ∈ nodes := by
    intro rounds
    induction rounds with
    | zero => exact fun a r _ h => nomatch h
    | succ rounds ih =>
        intro a r ha hRun
        cases hUp : up a with
        | none =>
            rw [climb_root hUp] at hRun
            exact Option.some.inj hRun ▸ ha
        | some b => exact ih b r (h.closed a b hUp) (climb_link hUp ▸ hRun)
  exact hClimb _ a _ ha (h.rooted a)

theorem mem_heads_iff (h : Tracks nodes up links rep edges) :
    a ∈ heads nodes rep ↔ a ∈ nodes ∧ up a = none := by
  rw [mem_heads, h.rooted.rep_eq_iff]

theorem rep_mem_heads (h : Tracks nodes up links rep edges) (ha : a ∈ nodes) :
    rep a ∈ heads nodes rep :=
  mem_heads.mpr ⟨h.rep_mem ha, h.represents.idem a⟩

theorem same (h : Tracks nodes up links rep edges) (hSame : rep u = rep v) :
    Tracks nodes up links rep (edges ++ [(u, v)]) where
  rooted := h.rooted
  represents := h.represents.same hSame
  closed := h.closed
  card_heads := h.card_heads

theorem link (h : Tracks nodes up links rep edges) (hp : p ∈ heads nodes rep)
    (hq : q ∈ heads nodes rep) (hNe : p ≠ q)
    (hEnds : p = rep u ∧ q = rep v ∨ p = rep v ∧ q = rep u) :
    Tracks nodes (Function.update up p (some q)) (links + 1) (merge rep p q)
      (edges ++ [(u, v)]) where
  rooted := h.rooted.link (h.mem_heads_iff.mp hp).2 (h.mem_heads_iff.mp hq).2 hNe
  represents := h.represents.merged hNe hEnds
  closed a b hUp := by
    by_cases hEq : a = p
    · rw [hEq, Function.update_self] at hUp
      exact Option.some.inj hUp ▸ (mem_heads.mp hq).1
    · rw [Function.update_of_ne hEq] at hUp
      exact h.closed a b hUp
  card_heads := by
    have hHeads := card_heads_merge hp hNe (mem_heads.mp hq).2
    have hCard := h.card_heads
    omega

/-- A union links the root of `u` below the one of `v`, or the other way round,
unless they are the same. -/
theorem join_cases (h : Tracks nodes up links rep edges) (hu : u ∈ nodes) (hv : v ∈ nodes)
    {State : Type*} (s : State) (linked : α → α → State) (swapped : Prop) [Decidable swapped] :
    let outcome :=
      if rep u = rep v then some (false, s)
      else if swapped then some (true, linked (rep v) (rep u))
      else some (true, linked (rep u) (rep v))
    (rep u = rep v ∧ outcome = some (false, s)) ∨
      ∃ p q, p ∈ heads nodes rep ∧ q ∈ heads nodes rep ∧ p ≠ q ∧
        (p = rep u ∧ q = rep v ∧ ¬swapped ∨ p = rep v ∧ q = rep u ∧ swapped) ∧
        outcome = some (true, linked p q) := by
  by_cases hEq : rep u = rep v
  · exact Or.inl ⟨hEq, if_pos hEq⟩
  · have hu := h.rep_mem_heads hu
    have hv := h.rep_mem_heads hv
    rw [if_neg hEq]
    by_cases hSwapped : swapped
    · exact Or.inr ⟨rep v, rep u, hv, hu, Ne.symm hEq, Or.inr ⟨rfl, rfl, hSwapped⟩,
        if_pos hSwapped⟩
    · exact Or.inr ⟨rep u, rep v, hu, hv, hEq, Or.inl ⟨rfl, rfl, hSwapped⟩, if_neg hSwapped⟩

theorem join (h : Tracks nodes up links rep edges) (hu : u ∈ nodes) (hv : v ∈ nodes)
    {State : Type*} (s : State) (linked : α → α → State) (Next : State → (α → α) → Prop)
    (hSame : rep u = rep v → Next s rep)
    (hLink : ∀ p q, p ∈ heads nodes rep → q ∈ heads nodes rep → p ≠ q →
      (p = rep u ∧ q = rep v ∨ p = rep v ∧ q = rep u) → Next (linked p q) (merge rep p q))
    (swapped : Prop) [Decidable swapped] :
    ∃ joined t rep',
      (if rep u = rep v then some (false, s)
        else if swapped then some (true, linked (rep v) (rep u))
        else some (true, linked (rep u) (rep v))) = some (joined, t) ∧
      (joined = false ↔ Connected edges u v) ∧ Next t rep' := by
  have hIff := h.represents.eq_iff u v
  rcases h.join_cases hu hv s linked swapped with
    ⟨hEq, hOutcome⟩ | ⟨p, q, hp, hq, hNe, hEnds, hOutcome⟩
  · exact ⟨false, s, rep, hOutcome, iff_of_true rfl (hIff.mp hEq), hSame hEq⟩
  · have hEnds : p = rep u ∧ q = rep v ∨ p = rep v ∧ q = rep u :=
      hEnds.imp (fun e => ⟨e.1, e.2.1⟩) fun e => ⟨e.1, e.2.1⟩
    have hJoined : true = false ↔ Connected edges u v := by
      refine iff_of_false (by decide) fun hConnected => hNe ?_
      have hEq := hIff.mpr hConnected
      rcases hEnds with ⟨rfl, rfl⟩ | ⟨rfl, rfl⟩
      · exact hEq
      · exact hEq.symm
    exact ⟨true, _, _, hOutcome, hJoined, hLink p q hp hq hNe hEnds⟩

end Tracks

/-- The weight of a root is the number of nodes in its tree. -/
def Weighs [DecidableEq α] (nodes : Finset α) (rep : α → α) (weight : α → Nat) : Prop :=
  ∀ r ∈ heads nodes rep, weight r = (members nodes rep r).card

theorem Weighs.merge [DecidableEq α] {nodes : Finset α} {rep : α → α} {weight weight' : α → Nat}
    {p q : α} (h : Weighs nodes rep weight) (hp : p ∈ heads nodes rep)
    (hq : q ∈ heads nodes rep) (hNe : p ≠ q) (hSum : weight' q = weight q + weight p)
    (hKept : ∀ r, r ≠ p → r ≠ q → weight' r = weight r) :
    Weighs nodes (Partition.merge rep p q) weight' := by
  intro r hr
  rw [heads_merge hp hNe (mem_heads.mp hq).2] at hr
  obtain ⟨hrp, hr⟩ := Finset.mem_erase.mp hr
  by_cases hrq : r = q
  · rw [hrq, card_members_merge_self hNe, hSum, h q hq, h p hp]
  · rw [members_merge_of_ne hrp hrq, hKept r hrp hrq, h r hr]

/-- A node is not deeper than the logarithm of the number of nodes in its tree. -/
def Shallow [DecidableEq α] (nodes : Finset α) (up : α → Option α) (height : Nat) (rep : α → α) :
    Prop :=
  ∀ a ∈ nodes, ∃ d, depth up (height + 1) a = some d ∧
    2 ^ d ≤ (members nodes rep (rep a)).card

namespace Shallow

variable [DecidableEq α] {nodes : Finset α} {height : Nat} {rep : α → α} {p q : α}

theorem start : Shallow nodes (fun _ => none) 0 id := by
  intro a ha
  refine ⟨0, rfl, ?_⟩
  rw [id, members_id ha, Finset.card_singleton, Nat.pow_zero]

/-- A smaller tree is linked below a larger one, or one of the same size. -/
theorem link (h : Shallow nodes up height rep) (hRooted : Rooted up height rep)
    (hp : p ∈ heads nodes rep) (hq : q ∈ heads nodes rep) (hNe : p ≠ q)
    (hLe : (members nodes rep p).card ≤ (members nodes rep q).card) :
    Shallow nodes (Function.update up p (some q)) (height + 1) (merge rep p q) := by
  intro a ha
  obtain ⟨d, hDepth, hSize⟩ := h a ha
  have hpUp := hRooted.rep_eq_iff.mp (mem_heads.mp hp).2
  have hqUp := hRooted.rep_eq_iff.mp (mem_heads.mp hq).2
  refine ⟨_, Rooted.depth_update hpUp hqUp hNe (hRooted a) hDepth, ?_⟩
  rw [merge]
  split_ifs with hMoved
  · rw [card_members_merge_self hNe, Nat.pow_succ]
    rw [hMoved] at hSize
    omega
  · by_cases hTo : rep a = q
    · rw [hTo, card_members_merge_self hNe]
      rw [hTo] at hSize
      omega
    · rwa [members_merge_of_ne hMoved hTo]

end Shallow

end Forest
