import CppPerf.Semantics.CommonSubsequence
import CppPerf.Semantics.GridTable

/-! The shortest common supersequences of `edit_distance.cpp`. A string is a list
of characters; reading one past its end fails. -/
namespace CppPerf.Strings

open GridTable

variable {α : Type} [DecidableEq α]

/-- `str.substr(i, str.size() - i)`, which throws beyond the end. -/
def substr (s : List α) (i : Nat) : Option (List α) :=
  if i ≤ s.length then some (s.drop i) else none

/-- `copy(begin(src), begin(src) + n, begin(dst))` -/
def copy (src : List α) (n : Nat) (dst : List α) : Option (List α) :=
  if n ≤ src.length ∧ n ≤ dst.length then some (src.take n ++ dst.drop n) else none

/-- Both `memo` and the strings in it are passed by reference: the caller reads
the answer in `memo`, at `i` and `j`. -/
def shortestSuperseq_dp (s t : List α) (i j : Nat) (memo : Table (List α)) :
    Option (Table (List α)) :=
  if i = s.length ∧ j = t.length then some memo
  else if memo i j = [] then
    if i = s.length then do
      let rest ← substr t j
      return memo.set i j rest
    else if j = t.length then do
      let rest ← substr s i
      return memo.set i j rest
    else if h : i < s.length ∧ j < t.length then
      if s[i] = t[j] then do
        let memo ← shortestSuperseq_dp s t (i + 1) (j + 1) memo
        return memo.set i j (memo i j ++ [s[i]] ++ memo (i + 1) (j + 1))
      else do
        let memo ← shortestSuperseq_dp s t (i + 1) j memo
        let memo ← shortestSuperseq_dp s t i (j + 1) memo
        let ans1 := memo (i + 1) j
        let ans2 := memo i (j + 1)
        if ans1.length < ans2.length then
          return memo.set i j (memo i j ++ [s[i]] ++ ans1)
        else
          return memo.set i j (memo i j ++ [t[j]] ++ ans2)
    else none
  else some memo
termination_by (s.length - i) + (t.length - j)

def shortestCommonSupersequence_topdown (s t : List α) : Option (List α) := do
  let memo ← shortestSuperseq_dp s t 0 0 (Table.const [])
  return memo 0 0

/-- Entry `i + 1`, `j + 1` of `dp` in `lcs_str_bottomup`. -/
def lcs_str_cell (s t : List α) (dp : Table (List α)) (i j : Nat) : Option (List α) := do
  let a ← s[i]?
  let b ← t[j]?
  if a = b then return dp i j ++ [a]
  else if (dp i (j + 1)).length < (dp (i + 1) j).length then return dp (i + 1) j
  else return dp i (j + 1)

def lcs_str_bottomup (s t : List α) : Option (List α) := do
  let dp ← fillRows (lcs_str_cell s t) t.length s.length (Table.const [])
  return dp s.length t.length

/-- `while (str[i] != c) ans.append(1, str[i++]);` -/
def appendUntil (s : List α) (c : α) (i : Nat) (ans : List α) : Option (Nat × List α) :=
  if h : i < s.length then
    if s[i] = c then some (i, ans) else appendUntil s c (i + 1) (ans ++ [s[i]])
  else none
termination_by s.length - i

/-- The loop over the characters of a common subsequence. -/
def weave (s t : List α) : List α → Nat → Nat → List α → Option (Nat × Nat × List α)
  | [], i, j, ans => some (i, j, ans)
  | c :: common, i, j, ans => do
      let (i, ans) ← appendUntil s c i ans
      let (j, ans) ← appendUntil t c j ans
      weave s t common (i + 1) (j + 1) (ans ++ [c])

def shortestCommonSupersequence_LCS (s t : List α) : Option (List α) := do
  let common ← lcs_str_bottomup s t
  let (i, j, ans) ← weave s t common 0 0 []
  let ans := if i < s.length then ans ++ s.drop i else ans
  return if j < t.length then ans ++ t.drop j else ans

/-- Entry `i + 1`, `j + 1` of `dp` in `lcs_bottomup`. -/
def lcs_cell (s t : List α) (dp : Table Nat) (i j : Nat) : Option Nat := do
  let a ← s[i]?
  let b ← t[j]?
  if a = b then return dp i j + 1
  else return max (dp (i + 1) j) (dp i (j + 1))

def lcs_bottomup (s t : List α) (n m : Nat) : Option (Table Nat) :=
  fillRows (lcs_cell s t) m n (Table.const 0)

/-- The way back through the table. It collects the characters from the end. -/
def backtrack (lcs : Table Nat) (s t : List α) :
    Nat → Nat → List α → Option (Nat × Nat × List α)
  | 0, c, res => some (0, c, res)
  | r + 1, 0, res => some (r + 1, 0, res)
  | r + 1, c + 1, res =>
      if lcs (r + 1) (c + 1) = lcs (r + 1) c then do
        let b ← t[c]?
        backtrack lcs s t (r + 1) c (res ++ [b])
      else if lcs (r + 1) (c + 1) = lcs r (c + 1) then do
        let a ← s[r]?
        backtrack lcs s t r (c + 1) (res ++ [a])
      else do
        let b ← t[c]?
        backtrack lcs s t r c (res ++ [b])
termination_by r c => r + c

/-- `resize` adds default characters, which are the first ones after `reverse`. -/
def shortestCommonSupersequence [Inhabited α] (s t : List α) : Option (List α) := do
  let lcs ← lcs_bottomup s t s.length t.length
  let (r, c, res) ← backtrack lcs s t s.length t.length []
  let res := (res ++ List.replicate (max r c) default).reverse
  let res ← if 0 < r then copy s r res else some res
  if 0 < c then copy t c res else some res

end CppPerf.Strings

/-! The three functions find a shortest common supersequence. -/
namespace CppPerf.Strings

open GridTable CommonSubsequence

variable {α : Type} [DecidableEq α] {s t : List α}

section Bottomup

/-- The table of `lcs_bottomup`. -/
def LcsTable (s t : List α) (dp : Table Nat) : Prop :=
  ∀ i ≤ s.length, ∀ j ≤ t.length, dp i j = lcs (s.take i) (t.take j)

theorem lcs_cell_propagates (s t : List α) : Propagates (lcs_cell s t)
    (fun i j v => v = lcs (s.take i) (t.take j)) s.length t.length := by
  intro dp i j hi hj hDiagonal hUp hLeft
  have hs := List.getElem?_eq_getElem hi
  have ht := List.getElem?_eq_getElem hj
  simp only [lcs_cell, hs, ht, Option.bind_eq_bind, Option.bind_some]
  split_ifs with hEq
  · rw [hEq] at hs
    exact ⟨_, rfl, by rw [lcs_take_self hs ht, hDiagonal]⟩
  · exact ⟨_, rfl, by rw [lcs_take_of_ne hs ht hEq, hUp, hLeft, Nat.max_comm]⟩

theorem lcs_bottomup_table (s t : List α) :
    ∃ dp, lcs_bottomup s t s.length t.length = some dp ∧ LcsTable s t dp :=
  fillRows_holds (lcs_cell_propagates s t) (fun _ _ => by simp [Table.const])
    (fun _ _ => by simp [Table.const])

/-- The strings of `lcs_str_bottomup`. -/
structure Longest (s t w : List α) : Prop where
  left : w.Sublist s
  right : w.Sublist t
  length_eq : w.length = lcs s t

theorem lcs_str_cell_propagates (s t : List α) : Propagates (lcs_str_cell s t)
    (fun i j w => Longest (s.take i) (t.take j) w) s.length t.length := by
  intro dp i j hi hj hDiagonal hUp hLeft
  have hs := List.getElem?_eq_getElem hi
  have ht := List.getElem?_eq_getElem hj
  have hsTake : (s.take i).Sublist (s.take (i + 1)) := List.take_sublist_take_left (by omega)
  have htTake : (t.take j).Sublist (t.take (j + 1)) := List.take_sublist_take_left (by omega)
  simp only [lcs_str_cell, hs, ht, Option.bind_eq_bind, Option.bind_some]
  split_ifs with hEq hLt
  · refine ⟨_, rfl, ?_, ?_, ?_⟩
    · rw [take_of_getElem hs]
      exact hDiagonal.left.append (List.Sublist.refl _)
    · rw [take_of_getElem ht, hEq]
      exact hDiagonal.right.append (List.Sublist.refl _)
    · rw [hEq] at hs
      rw [lcs_take_self hs ht, List.length_append, hDiagonal.length_eq, List.length_singleton]
  · refine ⟨_, rfl, hLeft.left, hLeft.right.trans htTake, ?_⟩
    rw [hUp.length_eq, hLeft.length_eq] at hLt
    rw [lcs_take_of_ne hs ht hEq, hLeft.length_eq, Nat.max_eq_right (Nat.le_of_lt hLt)]
  · refine ⟨_, rfl, hUp.left.trans hsTake, hUp.right, ?_⟩
    rw [hUp.length_eq, hLeft.length_eq] at hLt
    rw [lcs_take_of_ne hs ht hEq, hUp.length_eq, Nat.max_eq_left (Nat.le_of_not_lt hLt)]

theorem lcs_str_bottomup_longest (s t : List α) :
    ∃ w, lcs_str_bottomup s t = some w ∧ Longest s t w := by
  have hNil : ∀ s' t' : List α, lcs s' t' = 0 → Longest s' t' [] :=
    fun _ _ h => ⟨List.nil_sublist _, List.nil_sublist _, h.symm⟩
  have hFilled : ∃ dp, fillRows (lcs_str_cell s t) t.length s.length (Table.const []) = some dp ∧
      ∀ i ≤ s.length, ∀ j ≤ t.length, Longest (s.take i) (t.take j) (dp i j) :=
    fillRows_holds (lcs_str_cell_propagates s t) (fun _ _ => hNil _ _ (by simp))
      (fun _ _ => hNil _ _ (by simp))
  obtain ⟨dp, hFill, hHolds⟩ := hFilled
  have hLast := hHolds _ (Nat.le_refl _) _ (Nat.le_refl _)
  rw [List.take_length, List.take_length] at hLast
  exact ⟨_, by simp [lcs_str_bottomup, hFill], hLast⟩

end Bottomup

section Backtrack

/-- The characters that were collected, after what is left of one of the strings,
are a shortest common supersequence. -/
theorem backtrack_shortest {dp : Table Nat} (hTable : LcsTable s t dp) (r c : Nat)
    (res : List α) (hr : r ≤ s.length) (hc : c ≤ t.length) :
    ∃ r' c' w, backtrack dp s t r c res = some (r', c', res ++ w) ∧ (r' = 0 ∨ c' = 0) ∧
      r' ≤ r ∧ c' ≤ c ∧
      Shortest (s.take r) (t.take c) (s.take r' ++ t.take c' ++ w.reverse) := by
  induction r, c, res using backtrack.induct dp with
  | case1 c res =>
      exact ⟨0, c, [], by simp [backtrack], Or.inl rfl, Nat.le_refl _, Nat.le_refl _, by
        simpa using Shortest.nil_left _⟩
  | case2 r res =>
      exact ⟨r + 1, 0, [], by simp [backtrack], Or.inr rfl, Nat.le_refl _, Nat.le_refl _, by
        simpa using Shortest.nil_right _⟩
  | case3 r c res hEq ih =>
      have ht := List.getElem?_eq_getElem (show c < t.length by omega)
      obtain ⟨r', c', w, hRun, hDone, hr', hc', hShortest⟩ := ih t[c] hr (by omega)
      refine ⟨r', c', t[c] :: w, ?_, hDone, hr', by omega, ?_⟩
      · rw [backtrack, if_pos hEq, ht]
        simpa using hRun
      · rw [hTable _ hr _ hc, hTable _ hr _ (by omega), take_of_getElem ht] at hEq
        rw [take_of_getElem ht, List.reverse_cons, ← List.append_assoc]
        exact hShortest.concat_right hEq
  | case4 r c res hNe hEq ih =>
      have hs := List.getElem?_eq_getElem (show r < s.length by omega)
      obtain ⟨r', c', w, hRun, hDone, hr', hc', hShortest⟩ := ih s[r] (by omega) hc
      refine ⟨r', c', s[r] :: w, ?_, hDone, by omega, hc', ?_⟩
      · rw [backtrack, if_neg hNe, if_pos hEq, hs]
        simpa using hRun
      · rw [hTable _ hr _ hc, hTable _ (by omega) _ hc, take_of_getElem hs] at hEq
        rw [take_of_getElem hs, List.reverse_cons, ← List.append_assoc]
        exact hShortest.concat_left hEq
  | case5 r c res hNeLeft hNeUp ih =>
      have hs := List.getElem?_eq_getElem (show r < s.length by omega)
      have ht := List.getElem?_eq_getElem (show c < t.length by omega)
      obtain ⟨r', c', w, hRun, hDone, hr', hc', hShortest⟩ := ih t[c] (by omega) (by omega)
      refine ⟨r', c', t[c] :: w, ?_, hDone, by omega, by omega, ?_⟩
      · rw [backtrack, if_neg hNeLeft, if_neg hNeUp, ht]
        simpa using hRun
      · -- the entry is neither of its neighbours, so the characters are the same
        have hSame : s[r] = t[c] := by
          by_contra hNe
          have hLeft := hTable (r + 1) hr c (by omega)
          have hUp := hTable r (by omega) (c + 1) hc
          rw [hTable (r + 1) hr (c + 1) hc, lcs_take_of_ne hs ht hNe] at hNeLeft hNeUp
          rw [hLeft] at hNeLeft
          rw [hUp] at hNeUp
          omega
        rw [take_of_getElem hs, take_of_getElem ht, hSame, List.reverse_cons,
          ← List.append_assoc]
        exact hShortest.concat_self t[c]

omit [DecidableEq α] in
theorem copy_replicate {n : Nat} (hn : n ≤ s.length) (a : α) (w : List α) :
    copy s n (List.replicate n a ++ w) = some (s.take n ++ w) := by
  rw [copy, if_pos ⟨hn, by simp⟩, List.drop_left' (by simp)]

theorem shortestCommonSupersequence_shortest [Inhabited α] (s t : List α) :
    ∃ r, shortestCommonSupersequence s t = some r ∧ Shortest s t r := by
  obtain ⟨dp, hFill, hTable⟩ := lcs_bottomup_table s t
  obtain ⟨r, c, w, hRun, hDone, hr, hc, hShortest⟩ :=
    backtrack_shortest hTable s.length t.length [] (Nat.le_refl _) (Nat.le_refl _)
  rw [List.take_length, List.take_length] at hShortest
  refine ⟨_, ?_, hShortest⟩
  rcases hDone with rfl | rfl
  · rcases Nat.eq_zero_or_pos c with rfl | hPos
    · simp [shortestCommonSupersequence, hFill, hRun]
    · simp [shortestCommonSupersequence, hFill, hRun, hPos, copy_replicate hc]
  · rcases Nat.eq_zero_or_pos r with rfl | hPos
    · simp [shortestCommonSupersequence, hFill, hRun]
    · simp [shortestCommonSupersequence, hFill, hRun, hPos, copy_replicate hr]

end Backtrack

section Weave

/-- Everything before the first occurrence is appended. The rest of the common
subsequence comes after it. -/
theorem appendUntil_sublist {c : α} {common : List α} (i : Nat) (ans : List α)
    (hSub : (c :: common).Sublist (s.drop i)) :
    ∃ p, appendUntil s c i ans = some (i + p.length, ans ++ p) ∧
      s.drop i = p ++ c :: s.drop (i + p.length + 1) ∧
      common.Sublist (s.drop (i + p.length + 1)) := by
  induction i, ans using appendUntil.induct s c with
  | case1 i ans hLt hFound =>
      rw [List.drop_eq_getElem_cons hLt, hFound] at hSub ⊢
      refine ⟨[], ?_, rfl, List.cons_sublist_cons.mp hSub⟩
      rw [appendUntil, dif_pos hLt, if_pos hFound]
      simp
  | case2 i ans hLt hNe ih =>
      rw [List.drop_eq_getElem_cons hLt] at hSub
      obtain hLater | ⟨_, hEq, -⟩ := List.sublist_cons_iff.mp hSub
      · obtain ⟨p, hRun, hDrop, hRest⟩ := ih hLater
        have hNext : i + (s[i] :: p).length + 1 = i + 1 + p.length + 1 := by
          rw [List.length_cons]
          omega
        refine ⟨s[i] :: p, ?_, ?_, ?_⟩
        · rw [appendUntil, dif_pos hLt, if_neg hNe, hRun]
          simp [Nat.add_comm, Nat.add_left_comm]
        · rw [List.drop_eq_getElem_cons hLt, hNext, List.cons_append, ← hDrop]
        · rwa [hNext]
      · exact absurd (List.cons.inj hEq).1.symm hNe
  | case3 i ans hGe =>
      rw [List.drop_eq_nil_of_le (by omega)] at hSub
      cases hSub

/-- The loop appends the characters up to the last common one, and appends the
common ones once. -/
theorem weave_appends (common : List α) (i j : Nat) (ans : List α)
    (hs : common.Sublist (s.drop i)) (ht : common.Sublist (t.drop j)) :
    ∃ i' j' w, weave s t common i j ans = some (i', j', ans ++ w) ∧
      (s.drop i).Sublist (w ++ s.drop i') ∧ (t.drop j).Sublist (w ++ t.drop j') ∧
      w.length + (s.drop i').length + (t.drop j').length + common.length =
        (s.drop i).length + (t.drop j).length := by
  induction common generalizing i j ans with
  | nil => exact ⟨i, j, [], by simp [weave], by simp, by simp, by simp⟩
  | cons c common ih =>
      obtain ⟨p, hScan, hsDrop, hsRest⟩ := appendUntil_sublist i ans hs
      obtain ⟨q, hScan', htDrop, htRest⟩ := appendUntil_sublist j (ans ++ p) ht
      obtain ⟨i', j', w, hRun, hsSub, htSub, hLength⟩ :=
        ih _ _ (ans ++ p ++ q ++ [c]) hsRest htRest
      refine ⟨i', j', p ++ q ++ c :: w, ?_, ?_, ?_, ?_⟩
      · simpa [weave, hScan, hScan'] using hRun
      · rw [hsDrop]
        simp only [List.append_assoc, List.cons_append]
        exact (List.Sublist.refl p).append ((hsSub.cons_cons c).trans
          (List.sublist_append_right q _))
      · rw [htDrop]
        simp only [List.append_assoc, List.cons_append]
        exact ((List.Sublist.refl q).append (htSub.cons_cons c)).trans
          (List.sublist_append_right p _)
      · rw [hsDrop, htDrop]
        simp only [List.length_append, List.length_cons]
        omega

theorem shortestCommonSupersequence_LCS_shortest (s t : List α) :
    ∃ r, shortestCommonSupersequence_LCS s t = some r ∧ Shortest s t r := by
  obtain ⟨common, hCommon, hLongest⟩ := lcs_str_bottomup_longest s t
  obtain ⟨i, j, w, hRun, hs, ht, hLength⟩ := weave_appends common 0 0 [] hLongest.left
    hLongest.right
  -- nothing is left to append where the index is at the end
  have hTail : ∀ (u v : List α) (k : Nat),
      (if k < u.length then v ++ u.drop k else v) = v ++ u.drop k := by
    intro u v k
    split_ifs with hLt
    · rfl
    · rw [List.drop_eq_nil_of_le (Nat.le_of_not_lt hLt), List.append_nil]
  refine ⟨w ++ s.drop i ++ t.drop j, ?_, ?_, ?_, ?_⟩
  · simp only [shortestCommonSupersequence_LCS, hCommon, hRun, hTail, Option.bind_eq_bind,
      Option.bind_some, List.nil_append]
    rfl
  · exact hs.trans (List.sublist_append_left _ _)
  · refine ht.trans ((List.sublist_append_left w _).append (List.Sublist.refl _))
  · rw [← hLongest.length_eq, List.length_append, List.length_append, hLength]
    rfl

end Weave

section Memo

/-- A string in the memo is an answer; an empty one says nothing. -/
def Memo (s t : List α) (memo : Table (List α)) : Prop :=
  ∀ i ≤ s.length, ∀ j ≤ t.length, memo i j ≠ [] → Shortest (s.drop i) (t.drop j) (memo i j)

theorem Memo.set {memo : Table (List α)} {i j : Nat} {r : List α} (hMemo : Memo s t memo)
    (hr : Shortest (s.drop i) (t.drop j) r) : Memo s t (memo.set i j r) := by
  intro k hk l hl hne
  by_cases hAt : k = i ∧ l = j
  · obtain ⟨rfl, rfl⟩ := hAt
    rwa [memo.set_self]
  · have hKept := memo.set_of_ne (b := r) (not_and_or.mp hAt)
    rw [hKept] at hne ⊢
    exact hMemo k hk l hl hne

/-- What a call leaves in the memo. Entries before it in either string are not
written. -/
structure Answered (s t : List α) (i j : Nat) (memo memo' : Table (List α)) : Prop where
  holds : Memo s t memo'
  shortest : Shortest (s.drop i) (t.drop j) (memo' i j)
  kept : ∀ k l, k < i ∨ l < j → memo' k l = memo k l

theorem Answered.of_set {i j : Nat} {memo memo' : Table (List α)} {r : List α}
    (hMemo : Memo s t memo') (hKept : ∀ k l, k < i ∨ l < j → memo' k l = memo k l)
    (hr : Shortest (s.drop i) (t.drop j) r) : Answered s t i j memo (memo'.set i j r) where
  holds := hMemo.set hr
  shortest := by rwa [memo'.set_self]
  kept k l hkl := by rw [memo'.set_of_ne (by omega), hKept k l hkl]

/-- Where both strings go on and no answer is stored. -/
theorem shortestSuperseq_dp_step {i j : Nat} {memo : Table (List α)} (hEmpty : memo i j = [])
    (hi : i < s.length) (hj : j < t.length) :
    shortestSuperseq_dp s t i j memo =
      if s[i] = t[j] then
        (shortestSuperseq_dp s t (i + 1) (j + 1) memo).bind fun memo =>
          some (memo.set i j (memo i j ++ s[i] :: memo (i + 1) (j + 1)))
      else
        (shortestSuperseq_dp s t (i + 1) j memo).bind fun memo =>
          (shortestSuperseq_dp s t i (j + 1) memo).bind fun memo =>
            some (memo.set i j (memo i j ++
              if (memo (i + 1) j).length < (memo i (j + 1)).length then s[i] :: memo (i + 1) j
              else t[j] :: memo i (j + 1))) := by
  rw [shortestSuperseq_dp, if_neg (by omega), if_pos hEmpty, if_neg (by omega), if_neg (by omega),
    dif_pos ⟨hi, hj⟩]
  simp only [List.append_assoc, List.singleton_append, Option.bind_eq_bind, ← apply_ite]
  rfl

theorem shortestSuperseq_dp_answered (i j : Nat) (memo : Table (List α)) (hi : i ≤ s.length)
    (hj : j ≤ t.length) (hMemo : Memo s t memo) :
    ∃ memo', shortestSuperseq_dp s t i j memo = some memo' ∧ Answered s t i j memo memo' := by
  induction i, j, memo using shortestSuperseq_dp.induct s t with
  | case1 i j memo hEnd =>
      refine ⟨memo, by rw [shortestSuperseq_dp, if_pos hEnd], hMemo, ?_, fun _ _ _ => rfl⟩
      obtain ⟨rfl, rfl⟩ := hEnd
      have hNil : memo s.length t.length = [] := by
        by_contra hne
        have hShortest := hMemo _ hi _ hj hne
        rw [List.drop_length, List.drop_length] at hShortest
        exact hne hShortest.eq_nil
      rw [hNil, List.drop_length, List.drop_length]
      exact Shortest.nil_left []
  | case2 j memo hNotEnd hEmpty =>
      refine ⟨memo.set s.length j (t.drop j), ?_, Answered.of_set hMemo (fun _ _ _ => rfl) ?_⟩
      · rw [shortestSuperseq_dp, if_neg hNotEnd, if_pos hEmpty, if_pos rfl, substr, if_pos hj]
        rfl
      · rw [List.drop_length]
        exact Shortest.nil_left _
  | case3 i memo hNe hNotEnd hEmpty =>
      refine ⟨memo.set i t.length (s.drop i), ?_, Answered.of_set hMemo (fun _ _ _ => rfl) ?_⟩
      · rw [shortestSuperseq_dp, if_neg hNotEnd, if_pos hEmpty, if_neg hNe, if_pos rfl, substr,
          if_pos hi]
        rfl
      · rw [List.drop_length]
        exact Shortest.nil_right _
  | case4 i j memo hNotEnd hEmpty hNe hNe' hLt hSame ih =>
      obtain ⟨memo', hCall, hAnswered⟩ := ih hLt.1 hLt.2 hMemo
      have hHere : memo' i j = [] := by rw [hAnswered.kept i j (Or.inl i.lt_succ_self), hEmpty]
      refine ⟨memo'.set i j (s[i] :: memo' (i + 1) (j + 1)), ?_,
        Answered.of_set hAnswered.holds (fun k l hkl => hAnswered.kept k l (by omega)) ?_⟩
      · rw [shortestSuperseq_dp_step hEmpty hLt.1 hLt.2, if_pos hSame, hCall, Option.bind_some,
          hHere]
        rfl
      · rw [List.drop_eq_getElem_cons hLt.1, List.drop_eq_getElem_cons hLt.2, ← hSame]
        exact hAnswered.shortest.cons_self s[i]
  | case5 i j memo hNotEnd hEmpty hNe hNe' hLt hDiffer ih ih' =>
      obtain ⟨memo₁, hCall₁, hAnswered₁⟩ := ih hLt.1 hj hMemo
      obtain ⟨memo₂, hCall₂, hAnswered₂⟩ := ih' memo₁ hi hLt.2 hAnswered₁.holds
      have hKept : ∀ k l, k < i ∨ l < j → memo₂ k l = memo k l := fun k l hkl => by
        rw [hAnswered₂.kept k l (by omega), hAnswered₁.kept k l (by omega)]
      have hHere : memo₂ i j = [] := by
        rw [hAnswered₂.kept i j (Or.inr j.lt_succ_self),
          hAnswered₁.kept i j (Or.inl i.lt_succ_self), hEmpty]
      -- the second call does not write the answer of the first
      have hDown := hAnswered₁.shortest
      have hRight := hAnswered₂.shortest
      rw [← hAnswered₂.kept (i + 1) j (Or.inr j.lt_succ_self)] at hDown
      rw [List.drop_eq_getElem_cons hLt.1] at hRight
      rw [List.drop_eq_getElem_cons hLt.2] at hDown
      refine ⟨memo₂.set i j (if (memo₂ (i + 1) j).length < (memo₂ i (j + 1)).length then
        s[i] :: memo₂ (i + 1) j else t[j] :: memo₂ i (j + 1)), ?_,
        Answered.of_set hAnswered₂.holds hKept ?_⟩
      · rw [shortestSuperseq_dp_step hEmpty hLt.1 hLt.2, if_neg hDiffer, hCall₁, Option.bind_some,
          hCall₂, Option.bind_some, hHere]
        rfl
      · rw [List.drop_eq_getElem_cons hLt.1, List.drop_eq_getElem_cons hLt.2]
        exact hDown.shorter hRight hDiffer
  | case6 i j memo hNotEnd hEmpty hNe hNe' hNotLt => omega
  | case7 i j memo hNotEnd hFilled =>
      exact ⟨memo, by rw [shortestSuperseq_dp, if_neg hNotEnd, if_neg hFilled], hMemo,
        hMemo i hi j hj hFilled, fun _ _ _ => rfl⟩

theorem shortestCommonSupersequence_topdown_shortest (s t : List α) :
    ∃ r, shortestCommonSupersequence_topdown s t = some r ∧ Shortest s t r := by
  have hEmpty : Memo s t (Table.const []) := fun _ _ _ _ hne => absurd rfl hne
  obtain ⟨memo, hCall, hAnswered⟩ := shortestSuperseq_dp_answered 0 0 (Table.const [])
    (Nat.zero_le _) (Nat.zero_le _) hEmpty
  exact ⟨memo 0 0, by simp [shortestCommonSupersequence_topdown, hCall], hAnswered.shortest⟩

end Memo

end CppPerf.Strings
