import CppPerf.HashTable.ChainedLoops

/-! The chained table as a finite set. The counters are 32 bits wide while the
chains are not bounded, so they count nodes modulo `2 ^ 32`. -/
namespace CppPerf.HashTable.HashTableBase

open Indexed SetHistory Transition

variable {α : Type*}

/-- The counters are the numbers of live and of erased nodes. -/
structure ExactCounters (t : HashTableBase α) : Prop where
  size_eq : t.size = t.nodes.countP HashElement.live
  erased_eq : t.iErased.toNat = t.nodes.countP HashElement.bErased

variable [BEq α] [Hashable α]

/-- The table answers like the finite set that its history describes, and its
counters are the numbers of live and of erased nodes up to wrapping. -/
structure RefinesSet (t : HashTableBase α) (past : List (Event α)) : Prop where
  unique : (t.nodes.filter HashElement.live).Pairwise fun a b => (a.pData == b.pData) = false
  find_iff : ∀ x now, (t.find x now).2.isSome = member past x
  size_eq : t.size = t.nodes.countP HashElement.live % 2 ^ 32
  erased_eq : t.iErased.toNat = t.nodes.countP HashElement.bErased % 2 ^ 32

/-- Invariant of all histories. A live node is the first one of its chain with
its data, so a stale copy never hides it. -/
structure Consistent (t : HashTableBase α) (elements : Vec (List (HashElement α)))
    (past : List (Event α)) : Prop where
  elements_eq : t.pElements = some elements
  size_eq : elements.size = t.iSize
  size_pos : 0 < t.iSize
  home : ∀ i < elements.size, ∀ e ∈ elements.get i, t.bucketOf e.pData = i
  liveFirst : ∀ i < elements.size, LiveFirst (elements.get i)
  entries_eq : t.iEntries.toNat = elements.total (List.countP HashElement.live) % 2 ^ 32
  erased_eq : t.iErased.toNat = elements.total (List.countP HashElement.bErased) % 2 ^ 32
  keys_eq : (keysOf past).length = elements.total (List.countP HashElement.live)
  member_iff : ∀ x, member past x = true ↔ ¬NotLive x (elements.get (t.bucketOf x))

theorem bucketOf_congr [EquivBEq α] [LawfulHashable α] (t : HashTableBase α) {x y : α}
    (h : x == y) : t.bucketOf x = t.bucketOf y := by
  unfold bucketOf
  rw [hash_eq h]

namespace Consistent

variable {t t' : HashTableBase α} {elements : Vec (List (HashElement α))}
  {past past' : List (Event α)}

theorem bucketOf_lt (hc : t.Consistent elements past) (x : α) :
    t.bucketOf x < elements.size := by
  rw [hc.size_eq]
  exact Nat.mod_lt _ hc.size_pos

theorem nodes_eq (hc : t.Consistent elements past) :
    t.nodes = (List.range elements.size).flatMap elements.get := by
  simp only [nodes, hc.elements_eq]

theorem countP_nodes (hc : t.Consistent elements past) (p : HashElement α → Bool) :
    t.nodes.countP p = elements.total (List.countP p) := by
  rw [hc.nodes_eq, List.countP_flatMap]
  rfl

/-- One chain is replaced. The counters, the keys and the members have to
follow the difference between the two chains. -/
theorem setChain (hc : t.Consistent elements past) {i : Nat} {chain : List (HashElement α)}
    (hIndex : i < elements.size) (hTable : t'.pElements = some (elements.set i chain))
    (hSize : t'.iSize = t.iSize) (hHome : ∀ e ∈ chain, t.bucketOf e.pData = i)
    (hFirst : LiveFirst chain)
    (hEntries : (t'.iEntries.toNat + (elements.get i).countP HashElement.live) % 2 ^ 32 =
      (t.iEntries.toNat + chain.countP HashElement.live) % 2 ^ 32)
    (hErased : (t'.iErased.toNat + (elements.get i).countP HashElement.bErased) % 2 ^ 32 =
      (t.iErased.toNat + chain.countP HashElement.bErased) % 2 ^ 32)
    (hKeys : (keysOf past').length + (elements.get i).countP HashElement.live =
      (keysOf past).length + chain.countP HashElement.live)
    (hMember : ∀ x, member past' x = true ↔
      if t.bucketOf x = i then ¬NotLive x chain else member past x = true) :
    t'.Consistent (elements.set i chain) past' := by
  have hBucket : t'.bucketOf = t.bucketOf := by
    funext x
    rw [bucketOf, bucketOf, hSize]
  have hLive := elements.total_set (List.countP HashElement.live) i chain hIndex
  have hDead := elements.total_set (List.countP HashElement.bErased) i chain hIndex
  have hOldEntries := hc.entries_eq
  have hOldErased := hc.erased_eq
  have hOldKeys := hc.keys_eq
  have hNewEntries := t'.iEntries.toNat_lt
  have hNewErased := t'.iErased.toNat_lt
  refine ⟨hTable, ?_, ?_, ?_, ?_, by omega, by omega, by omega, ?_⟩
  · rw [Vec.size_set, hSize, hc.size_eq]
  · rw [hSize]
    exact hc.size_pos
  · intro j hj e he
    rw [Vec.get_set] at he
    rw [hBucket]
    split_ifs at he with hji
    · rw [hHome e he, hji]
    · exact hc.home j hj e he
  · intro j hj
    rw [Vec.get_set]
    split_ifs with hji
    · exact hFirst
    · exact hc.liveFirst j hj
  · intro x
    rw [hMember x, hBucket, Vec.get_set]
    split_ifs with hx
    · rfl
    · exact hc.member_iff x

/-- One node of a chain is replaced. -/
theorem replaceNode (hc : t.Consistent elements past) {i : Nat}
    {front back : List (HashElement α)} {e e' : HashElement α} (hIndex : i < elements.size)
    (hChain : elements.get i = front ++ e :: back)
    (hTable : t'.pElements = some (elements.set i (front ++ e' :: back)))
    (hSize : t'.iSize = t.iSize) (hHome : t.bucketOf e'.pData = i)
    (hFront : e'.live = true → ∀ a ∈ front, (a.pData == e'.pData) = false)
    (hBack : ∀ b ∈ back, b.live = true → (e'.pData == b.pData) = false)
    (hEntries : (t'.iEntries.toNat + e.live.toNat) % 2 ^ 32 =
      (t.iEntries.toNat + e'.live.toNat) % 2 ^ 32)
    (hErased : (t'.iErased.toNat + e.bErased.toNat) % 2 ^ 32 =
      (t.iErased.toNat + e'.bErased.toNat) % 2 ^ 32)
    (hKeys : (keysOf past').length + e.live.toNat = (keysOf past).length + e'.live.toNat)
    (hMember : ∀ x, member past' x = true ↔
      if t.bucketOf x = i then ¬NotLive x (front ++ e' :: back) else member past x = true) :
    t'.Consistent (elements.set i (front ++ e' :: back)) past' := by
  have hOldHome := hc.home i hIndex
  have hFirst := hc.liveFirst i hIndex
  have hCount : ∀ (p : HashElement α → Bool) (a : HashElement α),
      (front ++ a :: back).countP p = front.countP p + back.countP p + (p a).toNat := by
    intro p a
    rw [List.countP_append, List.countP_cons]
    cases p a with
    | false =>
        rw [if_neg Bool.false_ne_true, Bool.toNat_false]
        omega
    | true =>
        rw [if_pos rfl, Bool.toNat_true]
        omega
  rw [hChain] at hOldHome hFirst
  refine hc.setChain hIndex hTable hSize ?_ (hFirst.replace hFront hBack) ?_ ?_ ?_ hMember
  · intro a ha
    rcases List.mem_append.mp ha with ha | ha
    · exact hOldHome a (List.mem_append_left _ ha)
    · rcases List.mem_cons.mp ha with rfl | ha
      · exact hHome
      · exact hOldHome a (by simp [ha])
  all_goals
    rw [hChain, hCount, hCount]
    omega

theorem member_of_live (hc : t.Consistent elements past) {x : α}
    {front back : List (HashElement α)} {e : HashElement α}
    (hChain : elements.get (t.bucketOf x) = front ++ e :: back) (hLive : e.live = true)
    (hKey : e.pData == x) : member past x = true := by
  rw [hc.member_iff x, hChain]
  intro hNone
  rw [hNone e (by simp) hLive] at hKey
  cases hKey

theorem not_member (hc : t.Consistent elements past) {x : α}
    (hNone : NotLive x (elements.get (t.bucketOf x))) : member past x = false := by
  have hNot := (hc.member_iff x).not.mpr (not_not.mpr hNone)
  simpa using hNot

/-- A lookup answers whether the key is a member, and only touches the access
time of a node. -/
theorem find_spec (hc : t.Consistent elements past) (x : α) (now : Int) :
    (t.find x now).2.isSome = member past x ∧
      ∃ elements', (t.find x now).1.Consistent elements' past := by
  have hIndex := hc.bucketOf_lt x
  have hHome := hc.home _ hIndex
  have hFirst := hc.liveFirst _ hIndex
  have hSize : t.iSize ≠ 0 := by
    have hPos := hc.size_pos
    omega
  have hKeep : ∀ y, member past y = true ↔
      if t.bucketOf y = t.bucketOf x then ¬NotLive y (elements.get (t.bucketOf x))
      else member past y = true := by
    intro y
    split_ifs with hy
    · rw [← hy]
      exact hc.member_iff y
    · rfl
  rcases findLoop_cases x now (elements.get (t.bucketOf x)) with
    ⟨hNone, hLoop⟩ | ⟨front, e, back, hChain, hLive, hKey, hLoop⟩
  · simp only [find, hc.elements_eq, hSize, ↓reduceIte, hLoop]
    exact ⟨(hc.not_member hNone).symm, _, hc.setChain hIndex rfl rfl hHome hFirst rfl rfl rfl hKeep⟩
  · simp only [find, hc.elements_eq, hSize, ↓reduceIte, hLoop]
    have hMember := hc.member_of_live hChain hLive hKey
    rw [hChain] at hHome hFirst hKeep
    have hTouched : ∀ y, member past y = true ↔
        if t.bucketOf y = t.bucketOf x then
          ¬NotLive y (front ++ { e with tLastAccess := now } :: back)
        else member past y = true := by
      intro y
      have hSame : NotLive y (front ++ { e with tLastAccess := now } :: back) ↔
          NotLive y (front ++ e :: back) := notLive_same (by rfl) (by rfl) y
      rw [hSame]
      exact hKeep y
    exact ⟨hMember.symm, _, hc.replaceNode hIndex hChain rfl rfl (hHome e (by simp))
      hFirst.split.1 hFirst.split.2 rfl rfl rfl hTouched⟩

variable [EquivBEq α] [LawfulHashable α]

/-- The members after an insertion into the home chain of the key. -/
theorem member_after_insert (hc : t.Consistent elements past) {x : α}
    {chain : List (HashElement α)}
    (hChain : ∀ y, NotLive y chain ↔
      (x == y) = false ∧ NotLive y (elements.get (t.bucketOf x))) (y : α) :
    member (.inserted x :: past) y = true ↔
      if t.bucketOf y = t.bucketOf x then ¬NotLive y chain else member past y = true := by
  rw [member_inserted, Bool.or_eq_true]
  split_ifs with hy
  · rw [hChain, hc.member_iff y, hy]
    cases x == y <;> simp
  · have hNe : (x == y) = false := by
      by_contra hEq
      exact hy (bucketOf_congr t (by simpa using hEq)).symm
    simp [hNe]

/-- The members after an erasure from the home chain of the key. -/
theorem member_after_erase (hc : t.Consistent elements past) {x : α}
    {chain : List (HashElement α)}
    (hChain : ∀ y, ¬NotLive y chain ↔
      (x == y) = false ∧ ¬NotLive y (elements.get (t.bucketOf x))) (y : α) :
    member (.erased x :: past) y = true ↔
      if t.bucketOf y = t.bucketOf x then ¬NotLive y chain else member past y = true := by
  rw [member_erased, Bool.and_eq_true]
  split_ifs with hy
  · rw [hChain, hc.member_iff y, hy]
    cases x == y <;> simp
  · have hNe : (x == y) = false := by
      by_contra hEq
      exact hy (bucketOf_congr t (by simpa using hEq)).symm
    simp [hNe]

/-- Without a live node an erasure changes neither the chain nor the counters. -/
theorem erase_unchanged (hc : t.Consistent elements past) {x : α}
    (hNone : NotLive x (elements.get (t.bucketOf x))) :
    ({ t with pElements := some (elements.set (t.bucketOf x)
      (elements.get (t.bucketOf x))) } : HashTableBase α).Consistent
        (elements.set (t.bucketOf x) (elements.get (t.bucketOf x))) (.erased x :: past) := by
  have hIndex := hc.bucketOf_lt x
  refine hc.setChain hIndex rfl rfl (hc.home _ hIndex) (hc.liveFirst _ hIndex) rfl rfl ?_
    (hc.member_after_erase ?_)
  · rw [keysOf_erased_of_not_member past x (hc.not_member hNone)]
  · intro y
    refine ⟨fun hThere => ⟨?_, hThere⟩, And.right⟩
    by_contra hxy
    apply hThere
    intro e he hLive
    rw [← BEq.congr_right (by simpa using hxy : x == y)]
    exact hNone e he hLive

/-- The live node of the key is flagged. -/
theorem erase_flagged (hc : t.Consistent elements past) {x : α}
    {front back : List (HashElement α)} {e : HashElement α}
    (hChain : elements.get (t.bucketOf x) = front ++ e :: back) (hKey : e.pData == x)
    (hFront : ∀ a ∈ front, (a.pData == x) = false) (hErased : e.bErased = false) :
    ({ t with
        pElements := some
          (elements.set (t.bucketOf x) (front ++ { e with bErased := true } :: back))
        iEntries := t.iEntries - 1
        iErased := t.iErased + 1 } : HashTableBase α).Consistent
          (elements.set (t.bucketOf x) (front ++ { e with bErased := true } :: back))
          (.erased x :: past) := by
  have hIndex := hc.bucketOf_lt x
  have hHome := hc.home _ hIndex
  have hFirst := hc.liveFirst _ hIndex
  have hLive : e.live = true := by simp [HashElement.live, hErased]
  have hLength := length_keysOf_erased past x (hc.member_of_live hChain hLive hKey)
  rw [hChain] at hHome hFirst
  refine hc.replaceNode hIndex hChain rfl rfl (hHome e (by simp)) ?_ hFirst.split.2 ?_ ?_ ?_
    (hc.member_after_erase ?_)
  · intro hFalse
    simp [HashElement.live] at hFalse
  · simp only [UInt32.toNat_sub, HashElement.live, hErased, Bool.not_false, Bool.toNat_true,
      Bool.not_true, Bool.toNat_false, UInt32.reduceToNat]
    have hBound := t.iEntries.toNat_lt
    omega
  · simp only [UInt32.toNat_add, hErased, Bool.toNat_true, Bool.toNat_false,
      UInt32.reduceToNat]
    omega
  · simp only [HashElement.live, hErased, Bool.not_false, Bool.toNat_true, Bool.not_true,
      Bool.toNat_false]
    omega
  · intro y
    rw [hChain]
    exact notLive_flag hFirst hKey hFront (by simp [HashElement.live]) y

theorem erase_spec (hc : t.Consistent elements past) (x : α) :
    ∃ elements', (t.erase (some x)).1.Consistent elements' (.erased x :: past) := by
  have hSize : t.iSize ≠ 0 := by
    have hPos := hc.size_pos
    omega
  rcases t.eraseLoop_cases x (elements.get (t.bucketOf x)) with
    ⟨hNone, hLoop⟩ | ⟨front, e, back, hChain, hKey, hFront, hLoop⟩
  · simp only [erase, hc.elements_eq, hSize, ↓reduceIte, hLoop]
    exact ⟨_, hc.erase_unchanged fun e he _ => hNone e he⟩
  · simp only [erase, hc.elements_eq, hSize, ↓reduceIte, hLoop]
    cases hErased : e.bErased with
    | true =>
        -- The first match is stale, so no live node has the key.
        have hFirst := hc.liveFirst _ (hc.bucketOf_lt x)
        have hNone : NotLive x (elements.get (t.bucketOf x)) := by
          rw [hChain] at hFirst ⊢
          exact hFirst.notLive_of_stale hKey hFront hErased
        have hSame := hc.erase_unchanged hNone
        simp only [removeElement, hErased, Bool.not_true, Bool.false_eq_true, ↓reduceIte]
        rw [hChain] at hSame
        exact ⟨_, hSame⟩
    | false =>
        simp only [removeElement, hErased, Bool.not_false, ↓reduceIte]
        exact ⟨_, hc.erase_flagged hChain hKey hFront hErased⟩

/-- The live node of the key gets the new data. -/
theorem insert_found (hc : t.Consistent elements past) {x : α} {now : Int} {index : Nat}
    (hLoop : insertLoop x (elements.get (t.bucketOf x)) 0 none 1 = .matched index) :
    ∃ elements', (t.insert (some x) true now).1.Consistent elements' (.inserted x :: past) := by
  have hScan := insertLoop_scan x (elements.get (t.bucketOf x))
  rw [hLoop] at hScan
  obtain ⟨front, e, back, hChain, rfl, hLive, hKey⟩ := hScan
  have hIndex := hc.bucketOf_lt x
  have hFirst := hc.liveFirst _ hIndex
  have hLength := length_keysOf_inserted past x
  rw [hc.member_of_live hChain hLive hKey, if_pos rfl] at hLength
  have hModify : (front ++ e :: back).modify front.length (fun e => { e with pData := x }) =
      front ++ { e with pData := x } :: back := modify_length _ _ _ _
  rw [hChain] at hFirst
  simp only [insert, hc.elements_eq, hLoop]
  simp only [hChain, hModify]
  refine ⟨_, hc.replaceNode hIndex hChain rfl rfl rfl ?_ ?_ rfl rfl ?_
    (hc.member_after_insert ?_)⟩
  · intro _ a ha
    rw [BEq.congr_right (BEq.symm hKey)]
    exact hFirst.split.1 hLive a ha
  · intro b hb hLiveB
    rw [BEq.congr_left (BEq.symm hKey)]
    exact hFirst.split.2 b hb hLiveB
  · rw [hLength]
    rfl
  · intro y
    have hNew : ({ e with pData := x } : HashElement α).live = true := hLive
    rw [hChain]
    exact notLive_replace hNew rfl (fun _ => hKey) y

/-- A chain without erased nodes gets the key at its end. -/
theorem insert_appended (hc : t.Consistent elements past) {x : α} {now : Int} {iDepth : UInt32}
    (hLoop : insertLoop x (elements.get (t.bucketOf x)) 0 none 1 = .finished none iDepth) :
    ∃ elements', (t.insert (some x) true now).1.Consistent elements' (.inserted x :: past) := by
  have hScan := insertLoop_scan x (elements.get (t.bucketOf x))
  rw [hLoop] at hScan
  obtain ⟨hNone, hAllLive⟩ := hScan
  have hIndex := hc.bucketOf_lt x
  have hLength := length_keysOf_inserted past x
  rw [hc.not_member hNone, if_neg Bool.false_ne_true] at hLength
  have hCount (p : HashElement α → Bool) (a : HashElement α) :
      (elements.get (t.bucketOf x) ++ [a]).countP p =
        (elements.get (t.bucketOf x)).countP p + (p a).toNat := by
    rw [List.countP_append, List.countP_singleton]
    cases p a <;> rfl
  simp only [insert, hc.elements_eq, hLoop, ↓reduceIte]
  refine ⟨_, hc.setChain hIndex rfl rfl ?_ ((hc.liveFirst _ hIndex).append ?_) ?_ ?_ ?_
    (hc.member_after_insert ?_)⟩
  · intro e he
    rcases List.mem_append.mp he with he | he
    · exact hc.home _ hIndex e he
    · obtain rfl := List.mem_singleton.mp he
      rfl
  · intro a ha
    exact hNone a ha (hAllLive a ha)
  · simp only [hCount, HashElement.live, UInt32.toNat_add, UInt32.reduceToNat, Bool.not_false,
      Bool.toNat_true]
    omega
  · simp only [hCount, Bool.toNat_false, Nat.add_zero]
  · rw [hLength, hCount]
    simp only [HashElement.live, Bool.not_false, Bool.toNat_true]
    omega
  · intro y
    simp [NotLive, HashElement.live, or_imp, forall_and, and_comm]

/-- The first erased node is overwritten; no node in front of it has the key. -/
theorem insert_reused (hc : t.Consistent elements past) {x : α} {now : Int} {index : Nat}
    {iDepth : UInt32}
    (hLoop : insertLoop x (elements.get (t.bucketOf x)) 0 none 1 = .finished (some index) iDepth) :
    ∃ elements', (t.insert (some x) true now).1.Consistent elements' (.inserted x :: past) := by
  have hScan := insertLoop_scan x (elements.get (t.bucketOf x))
  rw [hLoop] at hScan
  obtain ⟨hNone, front, e, back, hChain, rfl, hDead, hAllLive⟩ := hScan
  have hIndex := hc.bucketOf_lt x
  have hLength := length_keysOf_inserted past x
  rw [hc.not_member hNone, if_neg Bool.false_ne_true] at hLength
  have hModify : (front ++ e :: back).modify front.length
      (fun _ => { pData := x, bErased := false, tLastAccess := now, tInsert := now }) =
      front ++ { pData := x, bErased := false, tLastAccess := now, tInsert := now } :: back :=
    modify_length _ _ _ _
  have hNotLive : e.live = false := by simp [HashElement.live, hDead]
  rw [hChain] at hNone
  simp only [insert, hc.elements_eq, hLoop]
  simp only [hChain, hModify]
  refine ⟨_, hc.replaceNode hIndex hChain rfl rfl rfl ?_ ?_ ?_ ?_ ?_
    (hc.member_after_insert ?_)⟩
  · intro _ a ha
    exact hNone a (by simp [ha]) (hAllLive a ha)
  · intro b hb hLiveB
    rw [BEq.comm]
    exact hNone b (by simp [hb]) hLiveB
  · rw [hNotLive]
    simp only [HashElement.live, UInt32.toNat_add, UInt32.reduceToNat, Bool.not_false,
      Bool.toNat_true, Bool.toNat_false]
    omega
  · simp only [hDead, UInt32.toNat_sub, UInt32.reduceToNat, Bool.toNat_true, Bool.toNat_false]
    have hBound := t.iErased.toNat_lt
    omega
  · rw [hLength, hNotLive]
    rfl
  · intro y
    rw [hChain]
    exact notLive_replace rfl rfl (by simp [hNotLive]) y

theorem insert_spec (hc : t.Consistent elements past) (x : α) (now : Int) :
    ∃ elements', (t.insert (some x) true now).1.Consistent elements' (.inserted x :: past) := by
  rcases hLoop : insertLoop x (elements.get (t.bucketOf x)) 0 none 1 with
    index | ⟨_ | index, iDepth⟩
  · exact hc.insert_found hLoop
  · exact hc.insert_appended hLoop
  · exact hc.insert_reused hLoop

theorem nodes_unique (hc : t.Consistent elements past) :
    (t.nodes.filter HashElement.live).Pairwise fun a b => (a.pData == b.pData) = false := by
  rw [hc.nodes_eq, List.filter_flatMap, List.pairwise_flatMap]
  constructor
  · intro i hi
    have hFirst := hc.liveFirst i (List.mem_range.mp hi)
    have hLive := hFirst.filter HashElement.live
    apply hLive.imp_of_mem
    intro a b _ hb hOrder
    exact hOrder (List.mem_filter.mp hb).2
  · -- Nodes of two chains have different hash values.
    have hRange : (List.range elements.size).Pairwise (· ≠ ·) := List.nodup_range
    apply hRange.imp_of_mem
    intro i j hi hj hij a ha b hb
    by_contra hEq
    have hSame := bucketOf_congr t (by simpa using hEq : a.pData == b.pData)
    rw [hc.home i (List.mem_range.mp hi) a (List.mem_filter.mp ha).1,
      hc.home j (List.mem_range.mp hj) b (List.mem_filter.mp hb).1] at hSame
    exact hij hSame

theorem refinesSet (hc : t.Consistent elements past) : t.RefinesSet past where
  unique := hc.nodes_unique
  find_iff := fun x now => (hc.find_spec x now).1
  size_eq := by rw [size, hc.countP_nodes, hc.entries_eq]
  erased_eq := by rw [hc.countP_nodes, hc.erased_eq]

end Consistent

/-- Below `2 ^ 32` nodes the counters have not wrapped. -/
theorem RefinesSet.exactCounters {t : HashTableBase α} {past : List (Event α)}
    (h : t.RefinesSet past) (hFew : t.nodes.length < 2 ^ 32) : t.ExactCounters where
  size_eq := by
    have hLe : t.nodes.countP HashElement.live ≤ t.nodes.length := List.countP_le_length
    rw [h.size_eq, Nat.mod_eq_of_lt (by omega)]
  erased_eq := by
    have hLe : t.nodes.countP HashElement.bErased ≤ t.nodes.length := List.countP_le_length
    rw [h.erased_eq, Nat.mod_eq_of_lt (by omega)]

/-- A constructed table after a `HashInitialize` whose allocation succeeded. -/
def initial (iDesiredSize : Nat) : HashTableBase α × List (Event α) :=
  ((hashInitialize {} iDesiredSize true).1, [])

theorem initial_consistent (iDesiredSize : Nat) :
    (initial (α := α) iDesiredSize).1.Consistent ⟨calcSize iDesiredSize, fun _ => []⟩
      (initial iDesiredSize).2 := by
  have hTotal (p : HashElement α → Bool) :
      (⟨calcSize iDesiredSize, fun _ => []⟩ : Vec (List (HashElement α))).total (List.countP p) =
        0 := by
    simp [Vec.total]
  refine ⟨rfl, rfl, calcSize_pos _, ?_, ?_, ?_, ?_, ?_, ?_⟩
  · simp
  · simp [LiveFirst]
  · rw [hTotal]
    rfl
  · rw [hTotal]
    rfl
  · rw [hTotal]
    rfl
  · intro x
    simp [initial, NotLive]

variable [EquivBEq α] [LawfulHashable α]

/-- Every call keeps the invariant, whatever the history. -/
theorem step_consistent (s : HashTableBase α × List (Event α)) (call : Call α × Int)
    (s' : HashTableBase α × List (Event α)) (hc : ∃ elements, s.1.Consistent elements s.2)
    (hStep : step s call = some s') : ∃ elements, s'.1.Consistent elements s'.2 := by
  obtain ⟨t, past⟩ := s
  obtain ⟨call, now⟩ := call
  obtain ⟨elements, hc⟩ := hc
  cases call with
  | insert x =>
      simp only [step, Option.some.injEq] at hStep
      subst s'
      exact hc.insert_spec x now
  | erase x =>
      simp only [step, Option.some.injEq] at hStep
      subst s'
      exact hc.erase_spec x
  | find x =>
      simp only [step, Option.some.injEq] at hStep
      subst s'
      exact (hc.find_spec x now).2

theorem always_consistent (iDesiredSize : Nat) (calls : List (Call α × Int)) :
    Always step (fun s => ∃ elements, s.1.Consistent elements s.2) (initial iDesiredSize) calls :=
  always_of_invariant step_consistent calls ⟨_, initial_consistent iDesiredSize⟩

/-- In every state of every run the table is the finite set of its history.
Its counters are exact as long as there are fewer than `2 ^ 32` nodes. -/
theorem always_refinesSet (iDesiredSize : Nat) (calls : List (Call α × Int)) :
    Always step
      (fun s => s.1.RefinesSet s.2 ∧ (s.1.nodes.length < 2 ^ 32 → s.1.ExactCounters))
      (initial iDesiredSize) calls := by
  apply (always_consistent iDesiredSize calls).mono
  intro s hc
  obtain ⟨elements, hc⟩ := hc
  have hRefines := hc.refinesSet
  exact ⟨hRefines, hRefines.exactCounters⟩

theorem always_refinesSet_stale_copy :
    Always step
      (fun s => s.1.RefinesSet s.2 ∧ (s.1.nodes.length < 2 ^ 32 → s.1.ExactCounters))
      (initial (α := Nat) 10)
      [(.insert 1, 0), (.insert 16002, 1), (.erase 1, 2), (.insert 16003, 3), (.find 1, 4)] :=
  always_refinesSet 10
    [(.insert 1, 0), (.insert 16002, 1), (.erase 1, 2), (.insert 16003, 3), (.find 1, 4)]

/-- Insertions of the keys below `n`. -/
def insertAll (n : Nat) : List (Call Nat × Int) :=
  (List.range n).map fun i => (.insert i, 0)

/-- The history of these insertions. -/
def insertedAll : Nat → List (Event Nat)
  | 0 => []
  | n + 1 => .inserted n :: insertedAll n

theorem member_insertedAll (n x : Nat) : member (insertedAll n) x = decide (x < n) := by
  induction n with
  | zero => rfl
  | succ n ih =>
      rw [insertedAll, member_inserted, ih, Bool.eq_iff_iff]
      simp only [Bool.or_eq_true, beq_iff_eq, decide_eq_true_eq]
      omega

theorem length_keysOf_insertedAll (n : Nat) : (keysOf (insertedAll n)).length = n := by
  induction n with
  | zero => rfl
  | succ n ih =>
      rw [insertedAll, length_keysOf_inserted, member_insertedAll, ih]
      simp

theorem run_insertAll (n : Nat) :
    ∃ t, run step (initial 10) (insertAll n) = some (t, insertedAll n) := by
  induction n with
  | zero => exact ⟨_, rfl⟩
  | succ n ih =>
      obtain ⟨t, hRun⟩ := ih
      have hShift : insertAll (n + 1) = insertAll n ++ [(.insert n, 0)] := by
        simp [insertAll, List.range_succ]
      rw [hShift, run_append, hRun]
      exact ⟨_, rfl⟩

/-- From `2 ^ 32` live nodes on, `size()` is not their number. -/
theorem not_exact_insertAll (n : Nat) (hn : 2 ^ 32 ≤ n) :
    ¬Always step (fun s => s.1.RefinesSet s.2 ∧ s.1.ExactCounters) (initial 10) (insertAll n) := by
  intro hAlways
  obtain ⟨t, hRun⟩ := run_insertAll n
  obtain ⟨elements, hc⟩ := (always_consistent 10 (insertAll n)).finish hRun
  have hSize : t.size = t.nodes.countP HashElement.live := (hAlways.finish hRun).2.size_eq
  have hKeys := hc.keys_eq
  have hBound := t.iEntries.toNat_lt
  rw [length_keysOf_insertedAll] at hKeys
  rw [hc.countP_nodes, ← hKeys, size] at hSize
  omega

theorem size_wraps :
    ¬Always step (fun s => s.1.RefinesSet s.2 ∧ s.1.ExactCounters) (initial 10)
      (insertAll (2 ^ 32)) :=
  not_exact_insertAll (2 ^ 32) (Nat.le_refl _)

end CppPerf.HashTable.HashTableBase
