import CppPerf.HashTable.Chained

/-! What the loops over one chain return. In a chain where every live node is
the first one with its data, the first match is the live one. -/
namespace CppPerf.HashTable.HashTableBase

variable {α : Type*}

/-- Updating the node that a loop stopped at. -/
theorem modify_length (f : HashElement α → HashElement α) (front back : List (HashElement α))
    (e : HashElement α) :
    (front ++ e :: back).modify front.length f = front ++ f e :: back := by
  induction front with
  | nil => rfl
  | cons a front ih => rw [List.cons_append, List.length_cons, List.modify_succ_cons, ih]; rfl

/-- The node that `insert` reuses: the first erased one, if there is any. -/
def FirstErased (chain : List (HashElement α)) : Option Nat → Prop
  | none => ∀ e ∈ chain, e.live = true
  | some index => ∃ front e back, chain = front ++ e :: back ∧ front.length = index ∧
      e.bErased = true ∧ ∀ a ∈ front, a.live = true

/-- The remembered node stays the first erased one when the loop moves on. -/
private theorem FirstErased.snoc {front : List (HashElement α)} {pErased : Option Nat}
    (h : FirstErased front pErased) (e : HashElement α) :
    FirstErased (front ++ [e])
      (if e.bErased then if pErased.isNone then some front.length else pErased
        else pErased) := by
  cases pErased with
  | none =>
      by_cases hErased : e.bErased = true
      · rw [if_pos hErased, Option.isNone_none, if_pos rfl]
        exact ⟨front, e, [], rfl, rfl, hErased, h⟩
      · rw [if_neg hErased]
        intro a ha
        rcases List.mem_append.mp ha with ha | ha
        · exact h a ha
        · obtain rfl := List.mem_singleton.mp ha
          simpa [HashElement.live] using hErased
  | some index =>
      obtain ⟨l, a, r, hFront, hIndex, hErased, hLive⟩ := h
      simp only [Option.isNone_some, Bool.false_eq_true, ↓reduceIte, ite_self]
      exact ⟨l, a, r ++ [e], by rw [hFront]; simp, hIndex, hErased, hLive⟩

variable [BEq α]

/-- No live node of the chain holds the key. -/
def NotLive (x : α) (chain : List (HashElement α)) : Prop :=
  ∀ e ∈ chain, e.live = true → (e.pData == x) = false

/-- No node in front of a live one has equal data, erased or not. -/
def LiveFirst (chain : List (HashElement α)) : Prop :=
  chain.Pairwise fun a b => b.live = true → (a.pData == b.pData) = false

theorem findLoop_cases (x : α) (now : Int) (chain : List (HashElement α)) :
    (NotLive x chain ∧ findLoop x now chain = (chain, none)) ∨
      ∃ front e back, chain = front ++ e :: back ∧ e.live = true ∧ e.pData == x ∧
        findLoop x now chain =
          (front ++ { e with tLastAccess := now } :: back, some e.pData) := by
  induction chain with
  | nil => exact Or.inl ⟨by simp [NotLive], rfl⟩
  | cons e rest ih =>
      by_cases hSkip : (e.bErased || e.pData != x) = true
      · rcases ih with ⟨hNone, hLoop⟩ | ⟨front, e', back, hRest, hLive, hKey, hLoop⟩
        · refine Or.inl ⟨?_, by simp only [findLoop, hSkip, ↓reduceIte, hLoop]⟩
          intro a ha hLive
          rcases List.mem_cons.mp ha with rfl | ha
          · have hFlag : a.bErased = false := by simpa [HashElement.live] using hLive
            simpa [hFlag, bne] using hSkip
          · exact hNone a ha hLive
        · refine Or.inr ⟨e :: front, e', back, by rw [hRest]; rfl, hLive, hKey, ?_⟩
          simp only [findLoop, hSkip, ↓reduceIte, hLoop, List.cons_append]
      · refine Or.inr ⟨[], e, rest, rfl, ?_, ?_, ?_⟩
        · cases hErased : e.bErased <;> simp_all [HashElement.live]
        · cases hErased : e.bErased <;> simp_all [bne]
        · simp only [findLoop, hSkip, Bool.false_eq_true, ↓reduceIte, List.nil_append]

theorem eraseLoop_cases (t : HashTableBase α) (x : α) (chain : List (HashElement α)) :
    ((∀ e ∈ chain, (e.pData == x) = false) ∧ t.eraseLoop x chain = (t, chain, false)) ∨
      ∃ front e back, chain = front ++ e :: back ∧ e.pData == x ∧
        (∀ a ∈ front, (a.pData == x) = false) ∧
        t.eraseLoop x chain =
          ((t.removeElement e).1, front ++ (t.removeElement e).2 :: back, true) := by
  induction chain with
  | nil => exact Or.inl ⟨by simp, rfl⟩
  | cons e rest ih =>
      by_cases hMatch : (e.pData == x) = true
      · refine Or.inr ⟨[], e, rest, rfl, hMatch, by simp, ?_⟩
        simp only [eraseLoop, hMatch, ↓reduceIte, List.nil_append]
      · have hNe : (e.pData == x) = false := by simpa using hMatch
        rcases ih with ⟨hNone, hLoop⟩ | ⟨front, e', back, hRest, hKey, hFront, hLoop⟩
        · refine Or.inl ⟨?_, by simp only [eraseLoop, hMatch, hLoop]; rfl⟩
          intro a ha
          rcases List.mem_cons.mp ha with rfl | ha
          · exact hNe
          · exact hNone a ha
        · refine Or.inr ⟨e :: front, e', back, by rw [hRest]; rfl, hKey, ?_, ?_⟩
          · intro a ha
            rcases List.mem_cons.mp ha with rfl | ha
            · exact hNe
            · exact hFront a ha
          · simp only [eraseLoop, hNe, Bool.false_eq_true, ↓reduceIte, hLoop, List.cons_append]

/-- What `insert` knows about the chain when its loop ends. -/
def ScanOf (x : α) (chain : List (HashElement α)) : Scan → Prop
  | .matched index => ∃ front e back, chain = front ++ e :: back ∧ front.length = index ∧
      e.live = true ∧ e.pData == x
  | .finished pErased _ => NotLive x chain ∧ FirstErased chain pErased

/-- `front` is the part of the chain already passed. -/
private theorem insertLoop_from (x : α) (front rest : List (HashElement α))
    (pErased : Option Nat) (iDepth : UInt32) (hNone : NotLive x front)
    (hErased : FirstErased front pErased) :
    ScanOf x (front ++ rest) (insertLoop x rest front.length pErased iDepth) := by
  induction rest generalizing front pErased iDepth with
  | nil =>
      rw [List.append_nil]
      exact ⟨hNone, hErased⟩
  | cons e rest ih =>
      have hShift : front ++ e :: rest = (front ++ [e]) ++ rest := by simp
      have hLength : (front ++ [e]).length = front.length + 1 := by simp
      have hNext := hErased.snoc e
      by_cases hDead : e.bErased = true
      · rw [if_pos hDead] at hNext
        rw [insertLoop, if_pos hDead, hShift, ← hLength]
        refine ih _ _ _ ?_ hNext
        intro a ha hLive
        rcases List.mem_append.mp ha with ha | ha
        · exact hNone a ha hLive
        · obtain rfl := List.mem_singleton.mp ha
          simp [HashElement.live, hDead] at hLive
      · rw [if_neg hDead] at hNext
        rw [insertLoop, if_neg hDead]
        split_ifs with hMatch
        · exact ⟨front, e, rest, rfl, rfl, by simpa [HashElement.live] using hDead, hMatch⟩
        · rw [hShift, ← hLength]
          refine ih _ _ _ ?_ hNext
          intro a ha hLive
          rcases List.mem_append.mp ha with ha | ha
          · exact hNone a ha hLive
          · obtain rfl := List.mem_singleton.mp ha
            simpa using hMatch

theorem insertLoop_scan (x : α) (chain : List (HashElement α)) :
    ScanOf x chain (insertLoop x chain 0 none 1) := by
  have hNone : NotLive x ([] : List (HashElement α)) := by simp [NotLive]
  have hErased : FirstErased ([] : List (HashElement α)) none := by simp [FirstErased]
  exact insertLoop_from x [] chain none 1 hNone hErased

/-- Replacing one node keeps the order condition when the new node, if live,
has no equal node in front, and hides no live node behind it. -/
theorem LiveFirst.replace {front back : List (HashElement α)} {e e' : HashElement α}
    (h : LiveFirst (front ++ e :: back))
    (hFront : e'.live = true → ∀ a ∈ front, (a.pData == e'.pData) = false)
    (hBack : ∀ b ∈ back, b.live = true → (e'.pData == b.pData) = false) :
    LiveFirst (front ++ e' :: back) := by
  unfold LiveFirst at h ⊢
  rw [List.pairwise_append, List.pairwise_cons] at h ⊢
  obtain ⟨hF, ⟨_, hB⟩, hCross⟩ := h
  refine ⟨hF, ⟨hBack, hB⟩, ?_⟩
  intro a ha b hb hLive
  rcases List.mem_cons.mp hb with rfl | hb
  · exact hFront hLive a ha
  · exact hCross a ha b (List.mem_cons_of_mem e hb) hLive

theorem LiveFirst.append {chain : List (HashElement α)} (h : LiveFirst chain)
    {e : HashElement α} (hNew : ∀ a ∈ chain, (a.pData == e.pData) = false) :
    LiveFirst (chain ++ [e]) := by
  unfold LiveFirst at h ⊢
  rw [List.pairwise_append]
  refine ⟨h, List.pairwise_singleton _ _, ?_⟩
  intro a ha b hb _
  obtain rfl := List.mem_singleton.mp hb
  exact hNew a ha

/-- In front of and behind a node, as the order condition has it. -/
theorem LiveFirst.split {front back : List (HashElement α)} {e : HashElement α}
    (h : LiveFirst (front ++ e :: back)) :
    (e.live = true → ∀ a ∈ front, (a.pData == e.pData) = false) ∧
      ∀ b ∈ back, b.live = true → (e.pData == b.pData) = false := by
  unfold LiveFirst at h
  rw [List.pairwise_append, List.pairwise_cons] at h
  exact ⟨fun hLive a ha => h.2.2 a ha e (by simp) hLive, h.2.1.1⟩

/-- Nodes that agree in data and flag are the same for every key. -/
theorem notLive_same {front back : List (HashElement α)} {e e' : HashElement α}
    (hLive : e'.live = e.live) (hData : e'.pData = e.pData) (y : α) :
    NotLive y (front ++ e' :: back) ↔ NotLive y (front ++ e :: back) := by
  simp only [NotLive, List.forall_mem_append, List.forall_mem_cons, hLive, hData]

variable [EquivBEq α]

/-- If the first match of a key is erased then no live node has the key. This
is why `erase` may ignore the flag. -/
theorem LiveFirst.notLive_of_stale {x : α} {front back : List (HashElement α)}
    {e : HashElement α} (h : LiveFirst (front ++ e :: back)) (hKey : e.pData == x)
    (hFront : ∀ a ∈ front, (a.pData == x) = false) (hErased : e.bErased = true) :
    NotLive x (front ++ e :: back) := by
  intro a ha hLive
  rcases List.mem_append.mp ha with ha | ha
  · exact hFront a ha
  · rcases List.mem_cons.mp ha with rfl | ha
    · simp [HashElement.live, hErased] at hLive
    · have hNe := h.split.2 a ha hLive
      rwa [BEq.congr_left hKey, BEq.comm] at hNe

/-- Setting live data at a node that is erased or has equal data adds the key. -/
theorem notLive_replace {x : α} {front back : List (HashElement α)} {e e' : HashElement α}
    (hNew : e'.live = true) (hData : e'.pData = x) (hOld : e.live = true → e.pData == x) (y : α) :
    NotLive y (front ++ e' :: back) ↔ (x == y) = false ∧ NotLive y (front ++ e :: back) := by
  have hSame : e.live = true → (e.pData == y) = (x == y) := fun h => BEq.congr_left (hOld h)
  simp only [NotLive, List.forall_mem_append, List.forall_mem_cons, hNew, hData, forall_const]
  constructor
  · intro h
    exact ⟨h.2.1, h.1, fun hLive => by rw [hSame hLive, h.2.1], h.2.2⟩
  · intro h
    exact ⟨h.2.1, h.1, h.2.2.2⟩

/-- Flagging the first node of a key removes the key. -/
theorem notLive_flag {x : α} {front back : List (HashElement α)} {e e' : HashElement α}
    (hFirst : LiveFirst (front ++ e :: back)) (hKey : e.pData == x)
    (hFront : ∀ a ∈ front, (a.pData == x) = false) (hDead : e'.live = false) (y : α) :
    ¬NotLive y (front ++ e' :: back) ↔ (x == y) = false ∧ ¬NotLive y (front ++ e :: back) := by
  have hBack := hFirst.split.2
  simp only [NotLive, List.forall_mem_append, List.forall_mem_cons, hDead, Bool.false_eq_true,
    false_implies, true_and]
  by_cases hxy : (x == y) = true
  · have hNone : NotLive y front ∧ NotLive y back := by
      constructor
      · intro a ha _
        rw [← BEq.congr_right hxy]
        exact hFront a ha
      · intro b hb hLive
        have hNe := hBack b hb hLive
        rwa [BEq.congr_left (BEq.trans hKey hxy), BEq.comm] at hNe
    unfold NotLive at hNone
    simp only [hxy, Bool.true_eq_false, false_and, iff_false, not_not]
    exact hNone
  · have hNe : (x == y) = false := by simpa using hxy
    have hEy : (e.pData == y) = false := by rw [BEq.congr_left hKey, hNe]
    simp [hNe, hEy]

end CppPerf.HashTable.HashTableBase

/-! What one insertion or erasure does to the chains and to the statistics. -/
namespace CppPerf.HashTable.HashTableBase

open Indexed

variable {α : Type*}

theorem mem_modify {f : HashElement α → HashElement α} {chain : List (HashElement α)}
    {index : Nat} {a : HashElement α} (h : a ∈ chain.modify index f) :
    a ∈ chain ∨ ∃ e, a = f e := by
  obtain ⟨i, hi, rfl⟩ := List.mem_iff_getElem.mp h
  rw [List.getElem_modify]
  split_ifs with hIndex
  · exact Or.inr ⟨_, rfl⟩
  · exact Or.inl (List.getElem_mem _)

@[simp] theorem removeElement_pData (t : HashTableBase α) (e : HashElement α) :
    (t.removeElement e).2.pData = e.pData := by
  rw [removeElement]
  split_ifs <;> rfl

variable [BEq α]

/-- The loop counts the nodes that it passes. -/
private theorem insertLoop_depth (x : α) (chain : List (HashElement α)) (index : Nat)
    (pErased : Option Nat) (iDepth : UInt32) {pLast : Option Nat} {iLast : UInt32}
    (h : insertLoop x chain index pErased iDepth = .finished pLast iLast) :
    iLast = iDepth + UInt32.ofNat chain.length := by
  induction chain generalizing index pErased iDepth with
  | nil =>
      simp only [insertLoop, Scan.finished.injEq] at h
      simp [h.2]
  | cons e rest ih =>
      rw [insertLoop] at h
      have hNext : iDepth + 1 + UInt32.ofNat rest.length =
          iDepth + UInt32.ofNat (e :: rest).length := by
        rw [List.length_cons, UInt32.ofNat_add, UInt32.add_comm (UInt32.ofNat rest.length),
          UInt32.add_assoc]
        rfl
      split_ifs at h with hErased hMatch
      · rw [ih _ _ _ h, hNext]
      · rw [ih _ _ _ h, hNext]
      · rw [ih _ _ _ h, hNext]

/-- Every node of the chain is live and has other data. -/
private def allOther (x : α) (chain : List (HashElement α)) : Bool :=
  chain.all fun e => e.live && e.pData != x

/-- Only the loop that remembers no erased node has passed live nodes alone. -/
private theorem allOther_eq (x : α) (chain : List (HashElement α)) :
    allOther x chain = true ↔
      insertLoop x chain 0 none 1 = .finished none (UInt32.ofNat (chain.length + 1)) := by
  have hScan := insertLoop_scan x chain
  constructor
  · intro hAll
    have hOther : ∀ e ∈ chain, e.live = true ∧ (e.pData == x) = false := by
      simpa [allOther, bne] using hAll
    rcases hLoop : insertLoop x chain 0 none 1 with index | ⟨_ | index, iDepth⟩
    · rw [hLoop] at hScan
      obtain ⟨front, e, back, rfl, _, _, hKey⟩ := hScan
      have hNe := (hOther e (by simp)).2
      rw [hKey] at hNe
      cases hNe
    · rw [insertLoop_depth x chain 0 none 1 hLoop, UInt32.ofNat_add, UInt32.add_comm]
      rfl
    · rw [hLoop] at hScan
      obtain ⟨_, front, e, back, rfl, _, hErased, _⟩ := hScan
      have hLive := (hOther e (by simp)).1
      simp [HashElement.live, hErased] at hLive
  · intro hLoop
    rw [hLoop] at hScan
    obtain ⟨hNone, hLive⟩ := hScan
    simp only [allOther, List.all_eq_true, Bool.and_eq_true, bne]
    intro e he
    exact ⟨hLive e he, by rw [hNone e he (hLive e he)]; rfl⟩

/-- A chain is replaced, and the nodes in it that are new hold the data. -/
structure Rechained (t t' : HashTableBase α) (elements : Vec (List (HashElement α))) (i : Nat)
    (x : α) (chain : List (HashElement α)) : Prop where
  table_eq : t'.pElements = some (elements.set i chain)
  size_eq : t'.iSize = t.iSize
  nodes : ∀ e ∈ chain, e ∈ elements.get i ∨ e.pData = x

/-- No chain gets longer, and the statistics of the depths stay. -/
structure Overwritten (t t' : HashTableBase α) (elements : Vec (List (HashElement α))) (i : Nat)
    (x : α) (chain : List (HashElement α)) : Prop extends Rechained t t' elements i x chain where
  length_eq : chain.length = (elements.get i).length
  maxDepth_eq : t'.iMaxDepth = t.iMaxDepth
  counts_eq : t'.iCounts = t.iCounts

/-- The chain gets longer by one node at most, and that depth is recorded. -/
structure Appended (t t' : HashTableBase α) (elements : Vec (List (HashElement α))) (i : Nat)
    (x : α) (chain : List (HashElement α)) : Prop extends Rechained t t' elements i x chain where
  length_le : chain.length ≤ (elements.get i).length + 1
  maxDepth_eq : t'.iMaxDepth =
    if t.iMaxDepth < UInt32.ofNat ((elements.get i).length + 1) then
      UInt32.ofNat ((elements.get i).length + 1)
    else t.iMaxDepth
  counts_eq : t'.iCounts =
    if (UInt32.ofNat ((elements.get i).length + 1)).toNat < t.iCounts.size then
      t.iCounts.set (UInt32.ofNat ((elements.get i).length + 1)).toNat
        (t.iCounts.get (UInt32.ofNat ((elements.get i).length + 1)).toNat + 1)
    else t.iCounts

variable [Hashable α] {t : HashTableBase α} {x : α} {alloc : Bool} {now : Int} {index : Nat}
  {elements : Vec (List (HashElement α))}

theorem recordedDepth_eq (h : t.pElements = some elements) (x : α) :
    t.recordedDepth (some x) =
      if allOther x (elements.get (t.bucketOf x)) then
        some ((elements.get (t.bucketOf x)).length + 1)
      else none := by
  simp only [recordedDepth, h]
  rfl

/-- A matching or an erased node takes the data. No depth is recorded. -/
theorem insert_overwrites {f : HashElement α → HashElement α} {t' : HashTableBase α}
    (hInsert : (t.insert (some x) alloc now).1 = t') (hData : ∀ e, (f e).pData = x)
    (hTable : t'.pElements =
      some (elements.set (t.bucketOf x) ((elements.get (t.bucketOf x)).modify index f)))
    (hSize : t'.iSize = t.iSize) (hMax : t'.iMaxDepth = t.iMaxDepth)
    (hCounts : t'.iCounts = t.iCounts) :
    Overwritten t (t.insert (some x) alloc now).1 elements (t.bucketOf x) x
      ((elements.get (t.bucketOf x)).modify index f) where
  table_eq := by rw [hInsert, hTable]
  size_eq := by rw [hInsert, hSize]
  nodes := by
    intro a ha
    rcases mem_modify ha with ha | ⟨e, rfl⟩
    · exact Or.inl ha
    · exact Or.inr (hData e)
  length_eq := List.length_modify ..
  maxDepth_eq := by rw [hInsert, hMax]
  counts_eq := by rw [hInsert, hCounts]

/-- A node is added behind the chain, unless the allocation fails. Its depth is recorded. -/
theorem insert_appends (h : t.pElements = some elements) (x : α) (alloc : Bool) (now : Int)
    (hLoop : insertLoop x (elements.get (t.bucketOf x)) 0 none 1 =
      .finished none (UInt32.ofNat ((elements.get (t.bucketOf x)).length + 1))) :
    ∃ chain, Appended t (t.insert (some x) alloc now).1 elements (t.bucketOf x) x chain := by
  cases alloc with
  | true =>
      refine ⟨elements.get (t.bucketOf x) ++
        [{ pData := x, bErased := false, tLastAccess := now, tInsert := now }],
        ⟨?_, ?_, ?_⟩, ?_, ?_, ?_⟩
      · simp only [insert, h, hLoop, ↓reduceIte]
      · simp only [insert, h, hLoop, ↓reduceIte]
      · intro a ha
        rcases List.mem_append.mp ha with ha | ha
        · exact Or.inl ha
        · exact Or.inr (by rw [List.mem_singleton.mp ha])
      · rw [List.length_append, List.length_singleton]
      · simp only [insert, h, hLoop, ↓reduceIte]
      · simp only [insert, h, hLoop, ↓reduceIte]
  | false =>
      refine ⟨elements.get (t.bucketOf x), ⟨?_, ?_, fun e he => Or.inl he⟩, Nat.le_succ _, ?_, ?_⟩
      · rw [elements.set_eq_self rfl]
        simp only [insert, h, hLoop, Bool.false_eq_true, ↓reduceIte]
      · simp only [insert, h, hLoop, Bool.false_eq_true, ↓reduceIte]
      · simp only [insert, h, hLoop, Bool.false_eq_true, ↓reduceIte]
      · simp only [insert, h, hLoop, Bool.false_eq_true, ↓reduceIte]

/-- Either a node of the chain is overwritten, or a depth is recorded. -/
theorem insert_cases (h : t.pElements = some elements) (x : α) (alloc : Bool) (now : Int) :
    ∃ chain,
      t.recordedDepth (some x) = none ∧
          Overwritten t (t.insert (some x) alloc now).1 elements (t.bucketOf x) x chain ∨
        t.recordedDepth (some x) = some ((elements.get (t.bucketOf x)).length + 1) ∧
          Appended t (t.insert (some x) alloc now).1 elements (t.bucketOf x) x chain := by
  have hOther := allOther_eq x (elements.get (t.bucketOf x))
  have hDepth := recordedDepth_eq h x
  by_cases hAll : allOther x (elements.get (t.bucketOf x)) = true
  · rw [if_pos hAll] at hDepth
    obtain ⟨chain, hAppended⟩ := insert_appends h x alloc now (hOther.mp hAll)
    exact ⟨chain, Or.inr ⟨hDepth, hAppended⟩⟩
  · rw [if_neg hAll] at hDepth
    rcases hLoop : insertLoop x (elements.get (t.bucketOf x)) 0 none 1 with
      index | ⟨_ | index, iDepth⟩
    · have hInsert : (t.insert (some x) alloc now).1 =
          { t with
            pElements := some (elements.set (t.bucketOf x)
              ((elements.get (t.bucketOf x)).modify index fun e => { e with pData := x })) } := by
        simp only [insert, h, hLoop]
      exact ⟨_, Or.inl ⟨hDepth, insert_overwrites hInsert (fun _ => rfl) rfl rfl rfl rfl⟩⟩
    · have hLast := insertLoop_depth x _ 0 none 1 hLoop
      refine absurd (hOther.mpr ?_) hAll
      rw [hLoop, hLast, UInt32.ofNat_add, UInt32.add_comm]
      rfl
    · have hInsert : (t.insert (some x) alloc now).1 =
          { t with
            pElements := some (elements.set (t.bucketOf x)
              ((elements.get (t.bucketOf x)).modify index fun _ =>
                { pData := x, bErased := false, tLastAccess := now, tInsert := now })),
            iEntries := t.iEntries + 1, iErased := t.iErased - 1,
            iReusedCount := t.iReusedCount + 1 } := by
        simp only [insert, h, hLoop]
      exact ⟨_, Or.inl ⟨hDepth, insert_overwrites hInsert (fun _ => rfl) rfl rfl rfl rfl⟩⟩

/-- An erasure flags a node at most: data and statistics stay. -/
theorem erase_cases (h : t.pElements = some elements) (hSize : t.iSize ≠ 0) (x : α) :
    (∀ e ∈ elements.get (t.bucketOf x), (e.pData == x) = false) ∧
        t.erase (some x) = (t, false) ∨
      ∃ front e back, elements.get (t.bucketOf x) = front ++ e :: back ∧ e.pData == x ∧
        t.erase (some x) = ({ (t.removeElement e).1 with
          pElements := some (elements.set (t.bucketOf x)
            (front ++ (t.removeElement e).2 :: back)) }, true) := by
  rcases t.eraseLoop_cases x (elements.get (t.bucketOf x)) with
    ⟨hNone, hLoop⟩ | ⟨front, e, back, hChain, hKey, _, hLoop⟩
  · refine Or.inl ⟨hNone, ?_⟩
    have hSame : elements.set (t.bucketOf x) (elements.get (t.bucketOf x)) = elements :=
      elements.set_eq_self rfl
    simp only [erase, h, hSize, ↓reduceIte, hLoop, hSame]
    rw [← h]
  · refine Or.inr ⟨front, e, back, hChain, hKey, ?_⟩
    simp only [erase, h, hSize, ↓reduceIte, hLoop]

end CppPerf.HashTable.HashTableBase
