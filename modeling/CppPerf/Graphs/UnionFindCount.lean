import CppPerf.Graphs.UnionFindConnected

/-! The number of nodes that were added to a `UnionFind`. A node counts as added
once it is in a class with another one. -/
namespace CppPerf.Graphs

open Forest Indexed Ordered Partition Transition

/-- The ends of the edges. -/
def touched : List (Nat × Nat) → Finset Nat
  | [] => ∅
  | e :: rest => insert e.1 (insert e.2 (touched rest))

/-- An edge leads from the node to another one, or back. -/
def LeadsAway (edges : List (Nat × Nat)) (u : Nat) : Prop :=
  ∃ w, w ≠ u ∧ ((u, w) ∈ edges ∨ (w, u) ∈ edges)

/-- Before an edge from a node to itself there is one that leads away. -/
def NoLonelyLoop (edges : List (Nat × Nat)) : Prop :=
  ∀ front u back, edges = front ++ (u, u) :: back → LeadsAway front u

section Touched

variable {edges : List (Nat × Nat)} {u v : Nat}

theorem mem_touched : u ∈ touched edges ↔ ∃ e ∈ edges, e.1 = u ∨ e.2 = u := by
  induction edges with
  | nil => simp [touched]
  | cons e rest ih =>
      rw [touched, Finset.mem_insert, Finset.mem_insert, ih, List.exists_mem_cons_iff, or_assoc,
        eq_comm (a := u), eq_comm (a := u)]

theorem touched_concat (edges : List (Nat × Nat)) (u v : Nat) :
    touched (edges ++ [(u, v)]) = insert u (insert v (touched edges)) := by
  ext a
  simp only [mem_touched, List.mem_append, List.mem_singleton, Finset.mem_insert]
  constructor
  · rintro ⟨e, hOld | rfl, hEnd⟩
    · exact Or.inr (Or.inr ⟨e, hOld, hEnd⟩)
    · rcases hEnd with rfl | rfl
      · exact Or.inl rfl
      · exact Or.inr (Or.inl rfl)
  · rintro (rfl | rfl | ⟨e, hOld, hEnd⟩)
    · exact ⟨_, Or.inr rfl, Or.inl rfl⟩
    · exact ⟨_, Or.inr rfl, Or.inr rfl⟩
    · exact ⟨e, Or.inl hOld, hEnd⟩

theorem LeadsAway.mem_touched (h : LeadsAway edges u) : u ∈ touched edges := by
  obtain ⟨w, -, hMem | hMem⟩ := h
  · exact Graphs.mem_touched.mpr ⟨_, hMem, Or.inl rfl⟩
  · exact Graphs.mem_touched.mpr ⟨_, hMem, Or.inr rfl⟩

theorem LeadsAway.append (h : LeadsAway edges u) (more : List (Nat × Nat)) :
    LeadsAway (edges ++ more) u := by
  obtain ⟨w, hNe, hMem⟩ := h
  exact ⟨w, hNe, hMem.imp (List.mem_append_left more) (List.mem_append_left more)⟩

theorem noLonelyLoop_concat (edges : List (Nat × Nat)) (u v : Nat) :
    NoLonelyLoop (edges ++ [(u, v)]) ↔ NoLonelyLoop edges ∧ (u = v → LeadsAway edges u) := by
  constructor
  · intro h
    refine ⟨fun front a back hSplit => h front a (back ++ [(u, v)]) (by rw [hSplit]; simp), ?_⟩
    rintro rfl
    exact h edges u [] rfl
  · rintro ⟨hOld, hLast⟩ front a back hSplit
    rcases List.eq_nil_or_concat back with rfl | ⟨back, e, rfl⟩
    · obtain ⟨rfl, hEq⟩ := List.append_inj' hSplit rfl
      obtain ⟨rfl, rfl⟩ := Prod.mk.inj (List.cons.inj hEq).1
      exact hLast rfl
    · rw [List.concat_eq_append, ← List.cons_append, ← List.append_assoc] at hSplit
      exact hOld front a back (List.append_inj' hSplit rfl).1

/-- Without a lonely loop every node that is touched is led away from. -/
theorem NoLonelyLoop.leadsAway (h : NoLonelyLoop edges) (hu : u ∈ touched edges) :
    LeadsAway edges u := by
  obtain ⟨⟨a, b⟩, hMem, hEnd⟩ := mem_touched.mp hu
  by_cases hLoop : a = b
  · subst hLoop
    obtain rfl : a = u := hEnd.elim id id
    obtain ⟨front, back, rfl⟩ := List.append_of_mem hMem
    exact (h front a back rfl).append _
  · rcases hEnd with rfl | rfl
    · exact ⟨b, Ne.symm hLoop, Or.inl hMem⟩
    · exact ⟨a, hLoop, Or.inr hMem⟩

/-- A connection to another node begins with an edge that leads away. -/
theorem leadsAway_of_connected (h : Connected edges u v) (hNe : v ≠ u) : LeadsAway edges u := by
  by_contra hNone
  refine hNe ((h.congr (P := (· = u)) fun a b hMem => ?_).mp rfl)
  constructor
  · rintro rfl
    by_contra hb
    exact hNone ⟨b, hb, Or.inl hMem⟩
  · rintro rfl
    by_contra ha
    exact hNone ⟨a, ha, Or.inr hMem⟩

end Touched

namespace UnionFind

variable {uf : UnionFind} {N u v : Nat} {rep : Nat → Nat} {edges : List (Nat × Nat)}

/-- What `update_count` takes for a node that was added before. -/
def Counted (uf : UnionFind) (u : Nat) : Prop := 0 ≤ uf.parents.get u ∨ 1 < uf.size.get u

instance (uf : UnionFind) (u : Nat) : Decidable (uf.Counted u) :=
  inferInstanceAs (Decidable (0 ≤ uf.parents.get u ∨ 1 < uf.size.get u))

theorem get_count_update (uf : UnionFind) (u : Nat) :
    (uf.update_count u).get_count = uf.get_count + if uf.Counted u then 0 else 1 := by
  change (if uf.Counted u then uf else { uf with nodes_added := uf.nodes_added + 1 }).get_count = _
  split_ifs
  · rfl
  · rfl

theorem counted_update (uf : UnionFind) (u v : Nat) :
    (uf.update_count u).Counted v ↔ uf.Counted v := by
  rw [update_count]
  split_ifs
  · rfl
  · rfl

/-- A root has the size of its class, and every other node has a parent. -/
theorem Sound.counted_iff (h : Sound N uf rep edges)
    (hEdges : ∀ e ∈ edges, e.1 ∈ Finset.range (N + 1) ∧ e.2 ∈ Finset.range (N + 1))
    (hu : u ∈ Finset.range (N + 1)) : uf.Counted u ↔ LeadsAway edges u := by
  obtain ⟨links, hTracks⟩ := h.tracks
  by_cases hRoot : rep u = u
  · have hParent : uf.parents.get u < 0 := by
      by_contra hNot
      have hUp := hTracks.rooted.rep_eq_iff.mp hRoot
      rw [parentIn, if_neg hNot] at hUp
      cases hUp
    have hSize := h.weighs u (mem_heads.mpr ⟨hu, hRoot⟩)
    have hSelf : u ∈ members (Finset.range (N + 1)) rep u := mem_members.mpr ⟨hu, hRoot⟩
    rw [Counted, or_iff_right (Int.not_le.mpr hParent), hSize, Finset.one_lt_card_iff_nontrivial,
      Finset.nontrivial_iff_ne_singleton hSelf]
    constructor
    · intro hMore
      obtain ⟨w, hw, hNe⟩ : ∃ w ∈ members (Finset.range (N + 1)) rep u, w ≠ u := by
        by_contra hNone
        push Not at hNone
        exact hMore (Finset.eq_singleton_iff_unique_mem.mpr ⟨hSelf, hNone⟩)
      have hSame : rep u = rep w := hRoot.trans (mem_members.mp hw).2.symm
      exact leadsAway_of_connected ((hTracks.represents.eq_iff u w).mp hSame) hNe
    · rintro ⟨w, hNe, hMem⟩ hOne
      have hw : w ∈ Finset.range (N + 1) :=
        hMem.elim (fun hTo => (hEdges _ hTo).2) fun hFrom => (hEdges _ hFrom).1
      have hConnected : Connected edges u w :=
        hMem.elim Connected.of_mem fun hFrom => (Connected.of_mem hFrom).symm
      have hSame := (hTracks.represents.eq_iff u w).mpr hConnected
      have hIn : w ∈ members (Finset.range (N + 1)) rep u :=
        mem_members.mpr ⟨hw, hSame.symm.trans hRoot⟩
      rw [hOne, Finset.mem_singleton] at hIn
      exact hNe hIn
  · have hParent : 0 ≤ uf.parents.get u := by
      by_contra hNot
      exact hRoot (hTracks.rooted.rep_of_root (if_pos (Int.not_le.mp hNot)))
    have hConnected := (hTracks.represents.eq_iff u (rep u)).mp (hTracks.represents.idem u).symm
    exact iff_of_true (Or.inl hParent) (leadsAway_of_connected hConnected hRoot)

/-- Both ends are looked at before the union, which does not count. -/
theorem get_count_union {joined : Bool} {t : UnionFind} (h : uf.union_ u v = some (joined, t)) :
    t.get_count = uf.get_count + (if uf.Counted u then 0 else 1) +
      if uf.Counted v then 0 else 1 := by
  have hSame : t.get_count = ((uf.update_count u).update_count v).get_count := by
    obtain ⟨pu, -, h⟩ := Option.bind_eq_some_iff.mp h
    obtain ⟨pv, -, h⟩ := Option.bind_eq_some_iff.mp h
    split_ifs at h
    · rw [← (Prod.mk.inj (Option.some.inj h)).2]
    · rw [← (Prod.mk.inj (Option.some.inj h)).2]
      rfl
    · rw [← (Prod.mk.inj (Option.some.inj h)).2]
      rfl
  rw [hSame, get_count_update, get_count_update]
  simp only [counted_update]

/-- No node is missed, and none is counted twice unless there is a lonely loop. -/
structure CountsAdded (uf : UnionFind) (edges : List (Nat × Nat)) : Prop where
  le : (touched edges).card ≤ uf.get_count
  eq_iff : uf.get_count = (touched edges).card ↔ NoLonelyLoop edges

theorem construct_countsAdded (N : Nat) : CountsAdded (construct N) [] where
  le := Nat.le_refl 0
  eq_iff := iff_of_true rfl fun front _ _ hSplit =>
    absurd hSplit.symm (List.append_ne_nil_of_right_ne_nil front (List.cons_ne_nil _ _))

namespace CountsAdded

/-- A node that is looked at twice in one call is counted twice. -/
theorem loop {t : UnionFind} (h : CountsAdded uf edges)
    (hCounted : uf.Counted u ↔ LeadsAway edges u)
    (hCount : t.get_count = uf.get_count + (if uf.Counted u then 0 else 1) +
      if uf.Counted u then 0 else 1) : CountsAdded t (edges ++ [(u, u)]) := by
  have hLe := h.le
  have hCard : (touched (edges ++ [(u, u)])).card =
      (touched edges).card + if u ∈ touched edges then 0 else 1 := by
    rw [touched_concat, Finset.insert_idem, Finset.card_insert_eq_ite]
    split_ifs
    · rfl
    · rfl
  by_cases hAway : LeadsAway edges u
  · rw [if_pos (hCounted.mpr hAway)] at hCount
    rw [if_pos hAway.mem_touched] at hCard
    refine ⟨by omega, ?_⟩
    rw [noLonelyLoop_concat, and_iff_left fun _ => hAway, hCount, hCard]
    exact h.eq_iff
  · rw [if_neg (hCounted.not.mpr hAway)] at hCount
    have hNew : (if u ∈ touched edges then 0 else 1) ≤ 1 := by
      split_ifs
      · exact Nat.zero_le 1
      · exact Nat.le_refl 1
    refine ⟨by omega, iff_of_false (by omega) fun hNone => ?_⟩
    exact hAway (((noLonelyLoop_concat edges u u).mp hNone).2 rfl)

/-- Two different nodes are each counted if they were not led away from. -/
theorem edge {t : UnionFind} (h : CountsAdded uf edges) (hNe : u ≠ v)
    (hu : uf.Counted u ↔ LeadsAway edges u) (hv : uf.Counted v ↔ LeadsAway edges v)
    (hCount : t.get_count = uf.get_count + (if uf.Counted u then 0 else 1) +
      if uf.Counted v then 0 else 1) : CountsAdded t (edges ++ [(u, v)]) := by
  have hLe := h.le
  have hCard : (touched (edges ++ [(u, v)])).card =
      (touched edges).card + (if u ∈ touched edges then 0 else 1) +
        if v ∈ touched edges then 0 else 1 := by
    have hIn : u ∈ insert v (touched edges) ↔ u ∈ touched edges := by
      rw [Finset.mem_insert, or_iff_right hNe]
    simp only [touched_concat, Finset.card_insert_eq_ite, hIn]
    split_ifs
    · rfl
    · rfl
    · rfl
    · rfl
  -- A node that is counted for the first time may have been in a lonely loop.
  have hMore : ∀ a, (uf.Counted a ↔ LeadsAway edges a) →
      (if a ∈ touched edges then 0 else 1) ≤ if uf.Counted a then 0 else 1 := by
    intro a ha
    by_cases hAway : LeadsAway edges a
    · rw [if_pos hAway.mem_touched]
      exact Nat.zero_le _
    · rw [if_neg (ha.not.mpr hAway)]
      split_ifs
      · exact Nat.zero_le 1
      · exact Nat.le_refl 1
  have hSame : NoLonelyLoop edges → ∀ a, (uf.Counted a ↔ LeadsAway edges a) →
      (if uf.Counted a then 0 else 1) = if a ∈ touched edges then 0 else 1 := by
    intro hNone a ha
    have hIff : uf.Counted a ↔ a ∈ touched edges :=
      ha.trans ⟨LeadsAway.mem_touched, hNone.leadsAway⟩
    simp only [hIff]
  have huMore := hMore u hu
  have hvMore := hMore v hv
  refine ⟨by omega, ?_⟩
  rw [noLonelyLoop_concat, and_iff_left fun hEq => absurd hEq hNe]
  constructor
  · intro hEq
    exact h.eq_iff.mp (by omega)
  · intro hNone
    rw [hCount, hCard, h.eq_iff.mpr hNone, hSame hNone u hu, hSame hNone v hv]

end CountsAdded

/-- The invariant of the run. -/
theorem run_countsAdded (N : Nat) {edges : List (Nat × Nat)}
    (hEdges : ∀ e ∈ edges, e.1 ∈ Finset.range (N + 1) ∧ e.2 ∈ Finset.range (N + 1)) :
    ∃ uf, run step (construct N) edges = some uf ∧ CountsAdded uf edges := by
  have hRun : ∃ uf, run step (construct N) edges = some uf ∧
      (∃ rep, Sound N uf rep edges) ∧ CountsAdded uf edges := by
    induction edges using List.reverseRecOn with
    | nil => exact ⟨construct N, rfl, ⟨id, construct_sound N⟩, construct_countsAdded N⟩
    | append_singleton seen e ih =>
        have hSeen : ∀ e ∈ seen, e.1 ∈ Finset.range (N + 1) ∧ e.2 ∈ Finset.range (N + 1) :=
          fun e he => hEdges e (List.mem_append_left _ he)
        obtain ⟨uf, hRun, ⟨rep, hSound⟩, hCounts⟩ := ih hSeen
        obtain ⟨u, v⟩ := e
        obtain ⟨hu, hv⟩ := hEdges (u, v) (List.mem_append_right _ (List.mem_singleton_self _))
        obtain ⟨joined, t, rep', hUnion, -, hNext⟩ := hSound.union_ hu hv
        have hCount := get_count_union hUnion
        refine ⟨t, ?_, ⟨rep', hNext⟩, ?_⟩
        · rw [run_append, hRun, Option.bind_some, run_cons, step, hUnion]
          rfl
        · by_cases hEq : u = v
          · subst hEq
            exact hCounts.loop (hSound.counted_iff hSeen hu) hCount
          · exact hCounts.edge hEq (hSound.counted_iff hSeen hu) (hSound.counted_iff hSeen hv)
              hCount
  obtain ⟨uf, hRun, -, hCounts⟩ := hRun
  exact ⟨uf, hRun, hCounts⟩

end UnionFind
end CppPerf.Graphs
