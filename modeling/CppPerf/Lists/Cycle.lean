import CppPerf.Semantics.Orbit
import Mathlib.Data.Option.Basic

/-! The class `Cycle` of `LinkedList.cpp`: two pointers, one twice as fast as the other, find out
whether a list comes back to one of its nodes, and to which one first. -/
namespace CppPerf.Lists.Cycle

open Function Orbit

/-- The null pointer is zero. `link` is what the node at an address has in `next`, and reading
where no node is is undefined. A loop is undefined when it takes more turns than `fuel`. -/
def meetCycle (link : Nat → Option Nat) : (fuel : Nat) → (head fast : Nat) → Option Nat
  | 0, _, _ => none
  | fuel + 1, head, fast =>
      if head = 0 ∨ fast = 0 then some 0
      else do
        let after ← link fast
        if after = 0 then some 0
        else
          let head ← link head
          let fast ← link after
          if fast = head then some head else meetCycle link fuel head fast

def hasCycle (link : Nat → Option Nat) (fuel head : Nat) : Option Bool :=
  (meetCycle link fuel head head).map fun meet => decide (meet ≠ 0)

/-- The loop of `detectCycle`. -/
def entryLoop (link : Nat → Option Nat) : (fuel : Nat) → (meet head : Nat) → Option Nat
  | 0, _, _ => none
  | fuel + 1, meet, head =>
      if meet = head then some head
      else do
        let meet ← link meet
        let head ← link head
        entryLoop link fuel meet head

def detectCycle (link : Nat → Option Nat) (fuel head : Nat) : Option Nat := do
  let meet ← meetCycle link fuel head head
  if meet = 0 then some 0 else entryLoop link fuel meet head

/-- All nodes that can be reached, and none of them at the null pointer. -/
structure Nodes (link : Nat → Option Nat) (cells : List Nat) : Prop where
  null : 0 ∉ cells
  closed : ∀ p ∈ cells, ∃ q, link p = some q ∧ (q = 0 ∨ q ∈ cells)

/-- The pointer behind a pointer, and nothing behind the null pointer. -/
def next (link : Nat → Option Nat) (p : Nat) : Nat := if p = 0 then 0 else (link p).getD 0

/-- The list ends after `m` nodes. -/
def EndsAt (link : Nat → Option Nat) (head m : Nat) : Prop :=
  (next link)^[m] head = 0 ∧ ∀ i < m, (next link)^[i] head ≠ 0

/-- The list goes on for ever, and the first node that comes back is at `p`. -/
def EntersAt (link : Nat → Option Nat) (head p : Nat) : Prop :=
  (∀ i, (next link)^[i] head ≠ 0) ∧
    ∃ j k, FirstReturn (next link) head j k ∧ (next link)^[j] head = p

variable {link : Nat → Option Nat} {cells : List Nat} {head p m n t fuel : Nat}

theorem next_null : next link 0 = 0 := if_pos rfl

theorem Nodes.next_mem (hNodes : Nodes link cells) (hp : p = 0 ∨ p ∈ cells) :
    next link p = 0 ∨ next link p ∈ cells := by
  rcases hp with rfl | hp
  · exact Or.inl next_null
  · obtain ⟨q, hLink, hq⟩ := hNodes.closed p hp
    have hNull : p ≠ 0 := by
      rintro rfl
      exact hNodes.null hp
    rw [next, if_neg hNull, hLink]
    exact hq

theorem Nodes.iterate_mem (hNodes : Nodes link cells) (hHead : head = 0 ∨ head ∈ cells) (n : Nat) :
    (next link)^[n] head = 0 ∨ (next link)^[n] head ∈ cells := by
  induction n with
  | zero => exact hHead
  | succ n ih =>
      rw [iterate_succ_apply']
      exact hNodes.next_mem ih

/-- A node on the way can be read. -/
theorem Nodes.link_iterate (hNodes : Nodes link cells) (hHead : head = 0 ∨ head ∈ cells)
    (hn : (next link)^[n] head ≠ 0) :
    link ((next link)^[n] head) = some ((next link)^[n + 1] head) := by
  obtain ⟨q, hLink, -⟩ := hNodes.closed _ ((hNodes.iterate_mem hHead n).resolve_left hn)
  rw [iterate_succ_apply', next, if_neg hn, hLink]
  rfl

/-- A list ends within its nodes or it comes back to one of them. -/
theorem Nodes.endsAt_or_returns (hNodes : Nodes link cells) (hHead : head = 0 ∨ head ∈ cells) :
    (∃ m ≤ cells.length, EndsAt link head m) ∨
      ∃ j k, FirstReturn (next link) head j k ∧ k ≤ cells.length ∧
        ∀ n, (next link)^[n] head ≠ 0 := by
  by_cases hEnd : ∃ m ≤ cells.length, (next link)^[m] head = 0
  · classical
    refine Or.inl ⟨Nat.find hEnd, (Nat.find_spec hEnd).1, (Nat.find_spec hEnd).2, ?_⟩
    intro i hi hZero
    exact Nat.find_min hEnd hi ⟨le_trans hi.le (Nat.find_spec hEnd).1, hZero⟩
  · push Not at hEnd
    obtain ⟨j, k, hReturn, hk⟩ := exists_firstReturn fun i hi =>
      (hNodes.iterate_mem hHead i).resolve_left (hEnd i hi)
    refine Or.inr ⟨j, k, hReturn, hk, fun n => ?_⟩
    by_cases hn : j ≤ n
    · exact hReturn.ne_of_ne (fun i hi => hEnd i (by omega)) n hn
    · have hLt := hReturn.lt
      exact hEnd n (by omega)

/-- The fast pointer comes to the end before the two pointers meet again. -/
theorem meetCycle_ends (hNodes : Nodes link cells) (hHead : head = 0 ∨ head ∈ cells)
    (hEnd : EndsAt link head m) (hn : n + n ≤ m) (hFuel : m < n + n + (fuel + fuel)) :
    meetCycle link fuel ((next link)^[n] head) ((next link)^[n + n] head) = some 0 := by
  induction fuel generalizing n with
  | zero => omega
  | succ fuel ih =>
      rw [meetCycle]
      split_ifs with hNull
      · rfl
      · obtain ⟨hSlow, hFast⟩ := not_or.mp hNull
        rw [hNodes.link_iterate hHead hFast, Option.bind_eq_bind, Option.bind_some]
        split_ifs with hAfter
        · rfl
        · have hLt : n + n + 1 < m := by
            by_contra hNot
            have hIs : n + n + 1 = m ∨ n + n = m := by omega
            rcases hIs with hIs | hIs
            · exact hAfter (hIs ▸ hEnd.1)
            · exact hFast (hIs ▸ hEnd.1)
          rw [hNodes.link_iterate hHead hSlow, hNodes.link_iterate hHead hAfter,
            Option.bind_some, Option.bind_some, show n + n + 1 + 1 = n + 1 + (n + 1) by omega,
            if_neg]
          · exact ih (by omega) (by omega)
          · intro hSame
            have := le_of_return next_null hEnd.1 hEnd.2 (Nat.succ_pos n) hSame
            omega

/-- The pointers meet for the first time at a node that comes back after as many steps. -/
theorem meetCycle_returns (hNodes : Nodes link cells) (hHead : head = 0 ∨ head ∈ cells)
    (hNull : ∀ i, (next link)^[i] head ≠ 0)
    (hMeet : (next link)^[t + t] head = (next link)^[t] head)
    (hBefore : ∀ i < t, 0 < i → (next link)^[i + i] head ≠ (next link)^[i] head)
    (hn : n < t) (hFuel : t ≤ n + fuel) :
    meetCycle link fuel ((next link)^[n] head) ((next link)^[n + n] head) =
      some ((next link)^[t] head) := by
  induction fuel generalizing n with
  | zero => omega
  | succ fuel ih =>
      rw [meetCycle, if_neg (by simp [hNull]), hNodes.link_iterate hHead (hNull _),
        Option.bind_eq_bind, Option.bind_some, if_neg (hNull _),
        hNodes.link_iterate hHead (hNull _), hNodes.link_iterate hHead (hNull _),
        Option.bind_some, Option.bind_some, show n + n + 1 + 1 = n + 1 + (n + 1) by omega]
      by_cases hLast : n + 1 = t
      · rw [hLast, if_pos hMeet]
      · rw [if_neg (hBefore (n + 1) (by omega) (Nat.succ_pos n))]
        exact ih (by omega) (by omega)

/-- From where they met and from the first node, one step at a time, the pointers meet at the
node that comes back first. -/
theorem entryLoop_eq (hNodes : Nodes link cells) (hHead : head = 0 ∨ head ∈ cells)
    (hNull : ∀ i, (next link)^[i] head ≠ 0) {j k : Nat}
    (hReturn : FirstReturn (next link) head j k) (ht : 0 < t) (hWhole : k - j ∣ t) (hn : n ≤ j)
    (hFuel : j < n + fuel) :
    entryLoop link fuel ((next link)^[n + t] head) ((next link)^[n] head) =
      some ((next link)^[j] head) := by
  induction fuel generalizing n with
  | zero => omega
  | succ fuel ih =>
      rw [entryLoop]
      split_ifs with hSame
      · have hLe := hReturn.start_le ht hSame
        rw [show n = j by omega]
      · have hNe : n ≠ j := by
          rintro rfl
          exact hSame ((hReturn.returns_iff ht).mpr ⟨Nat.le_refl n, hWhole⟩)
        rw [hNodes.link_iterate hHead (hNull _), hNodes.link_iterate hHead (hNull _),
          Option.bind_eq_bind, Option.bind_some, Option.bind_some,
          show n + t + 1 = n + 1 + t by omega]
        exact ih (by omega) (by omega)

/-- The two pointers meet after a number of whole periods, no later than the first return. -/
theorem exists_meeting {f : Nat → Nat} {x j k : Nat} (h : FirstReturn f x j k) :
    ∃ t, 0 < t ∧ t ≤ k ∧ k - j ∣ t ∧ f^[t + t] x = f^[t] x ∧
      ∀ i < t, 0 < i → f^[i + i] x ≠ f^[i] x := by
  classical
  have hLt := h.lt
  have hSome : ∃ t, 0 < t ∧ f^[t + t] x = f^[t] x ∧ t ≤ k := by
    have hDiv := Nat.div_add_mod j (k - j)
    have hMod := Nat.mod_lt j (Nat.sub_pos_of_lt hLt)
    have hLe : (k - j) * (j / (k - j) + 1) ≤ k ∧ j ≤ (k - j) * (j / (k - j) + 1) := by
      rw [Nat.mul_succ]
      omega
    have hPos : 0 < (k - j) * (j / (k - j) + 1) :=
      Nat.mul_pos (Nat.sub_pos_of_lt hLt) (Nat.succ_pos _)
    exact ⟨_, hPos, (h.returns_iff hPos).mpr ⟨hLe.2, Nat.dvd_mul_right _ _⟩, hLe.1⟩
  obtain ⟨hPos, hMeet, hLe⟩ := Nat.find_spec hSome
  refine ⟨Nat.find hSome, hPos, hLe, ((h.returns_iff hPos).mp hMeet).2, hMeet, ?_⟩
  intro i hi hPositive hSame
  exact Nat.find_min hSome hi ⟨hPositive, hSame, by omega⟩

/-- `detectCycle` returns null for a list that ends, and otherwise the first node that the list
comes back to. Neither loop takes more turns than there are nodes. -/
theorem detectCycle_eq (hNodes : Nodes link cells) (hHead : head = 0 ∨ head ∈ cells)
    (hFuel : cells.length < fuel) :
    (∃ m, EndsAt link head m ∧ hasCycle link fuel head = some false ∧
        detectCycle link fuel head = some 0) ∨
      ∃ p, EntersAt link head p ∧ hasCycle link fuel head = some true ∧
        detectCycle link fuel head = some p := by
  rcases hNodes.endsAt_or_returns hHead with ⟨m, hm, hEnd⟩ | ⟨j, k, hReturn, hk, hNull⟩
  · have hMeet : meetCycle link fuel head head = some 0 :=
      meetCycle_ends (n := 0) hNodes hHead hEnd (Nat.zero_le m) (by omega)
    refine Or.inl ⟨m, hEnd, ?_, ?_⟩
    · rw [hasCycle, hMeet]
      rfl
    · rw [detectCycle, hMeet]
      rfl
  · obtain ⟨t, ht, hLe, hWhole, hSame, hBefore⟩ := exists_meeting hReturn
    have hLt := hReturn.lt
    have hMeet : meetCycle link fuel head head = some ((next link)^[t] head) :=
      meetCycle_returns (n := 0) hNodes hHead hNull hSame hBefore ht (by omega)
    have hEntry : entryLoop link fuel ((next link)^[t] head) head =
        some ((next link)^[j] head) := by
      rw [← Nat.zero_add t]
      exact entryLoop_eq (n := 0) hNodes hHead hNull hReturn ht hWhole (Nat.zero_le j) (by omega)
    refine Or.inr ⟨_, ⟨hNull, j, k, hReturn, rfl⟩, ?_, ?_⟩
    · rw [hasCycle, hMeet, Option.map_some, decide_eq_true (hNull t)]
    · rw [detectCycle, hMeet, Option.bind_eq_bind, Option.bind_some, if_neg (hNull t), hEntry]

/-- Four nodes, and behind the last one the second. -/
def fourNodes (p : Nat) : Option Nat := [(1, 2), (2, 3), (3, 4), (4, 2)].lookup p

theorem fourNodes_nodes : Nodes fourNodes [1, 2, 3, 4] where
  null := by decide
  closed := by simp [fourNodes, List.lookup_cons]

example : detectCycle fourNodes 5 1 = some 2 := by decide

theorem detectCycle_eq_four :
    (∃ m, EndsAt fourNodes 1 m ∧ hasCycle fourNodes 5 1 = some false ∧
        detectCycle fourNodes 5 1 = some 0) ∨
      ∃ p, EntersAt fourNodes 1 p ∧ hasCycle fourNodes 5 1 = some true ∧
        detectCycle fourNodes 5 1 = some p :=
  detectCycle_eq fourNodes_nodes (by decide) (by decide)

end CppPerf.Lists.Cycle
