import CppPerf.Semantics.HeapRange
import CppPerf.Text.Digits
import Mathlib.Algebra.Order.Ring.Int
import Mathlib.Data.List.Induction
import Mathlib.Data.List.Perm.Lattice
import Mathlib.Logic.Function.Basic

/-! The news feed of `designHeap.cpp`. The counter `gid` is shared by all objects of the class.
A map has an empty entry for each key that it does not hold. -/
namespace CppPerf.Feed.NewsFeed

open Text HeapRange

structure Tweet where
  tid : Int
  seq : Int

/-- A reverse iterator that is not at its end: the tweet it stands on, and those behind it. -/
structure TweetIterator where
  begin : Tweet
  behind : List Tweet

/-- The members of one object, and the counter. -/
structure Twitter where
  gid : Int
  allTweets : Int → List Tweet
  followees : Int → List Int

def empty (gid : Int) : Twitter := ⟨gid, fun _ => [], fun _ => []⟩

/-- The elements of an `unordered_set`, each once. -/
def insert (l : List Int) (v : Int) : List Int := if v ∈ l then l else v :: l

def postTweet (t : Twitter) (userId tweetId : Int) : Twitter :=
  let gid := int (t.gid + 1)
  ⟨gid, Function.update t.allTweets userId (t.allTweets userId ++ [⟨tweetId, gid⟩]),
    Function.update t.followees userId (insert (t.followees userId) userId)⟩

def follow (t : Twitter) (followerId followeeId : Int) : Twitter :=
  if followerId ≠ followeeId then
    { t with followees :=
        Function.update t.followees followerId (insert (t.followees followerId) followeeId) }
  else t

def unfollow (t : Twitter) (followerId followeeId : Int) : Twitter :=
  if followerId ≠ followeeId then
    { t with followees :=
        Function.update t.followees followerId ((t.followees followerId).erase followeeId) }
  else t

/-- The comparison `comp` is by this key. -/
def seqOf (t : TweetIterator) : Int := t.begin.seq

/-- An iterator over the tweets of a user who has some. -/
def iterator (tweet : List Tweet) : Option TweetIterator :=
  match tweet.reverse with
  | [] => none
  | begin :: behind => some ⟨begin, behind⟩

/-- The loop of `getNewsFeed`, for at most `n` more tweets. -/
def feed_loop (heap : HeapAlgorithms seqOf) : (n : Nat) → List TweetIterator → List Int
  | 0, _ => []
  | n + 1, tweet_heap =>
      if tweet_heap.isEmpty then []
      else
        let popped := heap.pop_heap tweet_heap
        match popped.getLast? with
        | none => []
        | some t =>
            let tweet_heap := popped.dropLast
            let tweet_heap :=
              match t.behind with
              | [] => tweet_heap
              | next :: behind => heap.push_heap (tweet_heap ++ [⟨next, behind⟩])
            t.begin.tid :: feed_loop heap n tweet_heap

/-- The elements of the set are visited in an order that is not known. -/
def getNewsFeed (heap : HeapAlgorithms seqOf) (t : Twitter) (order : List Int) : List Int :=
  feed_loop heap 10 (heap.make_heap (order.filterMap fun f => iterator (t.allTweets f)))

/-- The calls of the program. A tweet may also be posted in another object of the class. -/
inductive Call where
  | postTweet (userId tweetId : Int)
  | follow (followerId followeeId : Int)
  | unfollow (followerId followeeId : Int)
  | getNewsFeed (userId : Int)
  | elsewhere

/-- A news feed leaves the object as it is, but for empty entries. -/
def call (t : Twitter) : Call → Twitter
  | .postTweet userId tweetId => postTweet t userId tweetId
  | .follow followerId followeeId => follow t followerId followeeId
  | .unfollow followerId followeeId => unfollow t followerId followeeId
  | .getNewsFeed _ => t
  | .elsewhere => { t with gid := int (t.gid + 1) }

def run (calls : List Call) : Twitter := calls.foldl call (empty 0)

/-! The news feed has the most recent tweets. -/

section Merge

def TweetIterator.tweets (t : TweetIterator) : List Tweet := t.begin :: t.behind

/-- From the most recent tweet to the oldest. -/
def Recent (l : List Tweet) : Prop := l.Pairwise fun a b => b.seq < a.seq

variable {heap : HeapAlgorithms seqOf} {h : List TweetIterator} {L : List Tweet}

theorem tweets_perm {h' : List TweetIterator} (hPerm : h.Perm h') :
    (h.flatMap TweetIterator.tweets).Perm (h'.flatMap TweetIterator.tweets) :=
  hPerm.flatMap_right _

theorem begin_greatest {t : TweetIterator} {m : Tweet} (hRecent : Recent t.tweets)
    (hm : m ∈ t.tweets) : m.seq ≤ seqOf t := by
  rcases List.mem_cons.mp hm with rfl | hBehind
  · exact le_rfl
  · exact le_of_lt ((List.pairwise_cons.mp hRecent).1 m hBehind)

/-- The most recent of all tweets is the first one. -/
theorem recent_begin {x : Tweet} {others : List Tweet} (hRecent : Recent L)
    (hPerm : L.Perm (x :: others)) (hMax : ∀ m ∈ others, m.seq ≤ x.seq) :
    ∃ L', L = x :: L' := by
  cases L with
  | nil => exact absurd hPerm.symm.eq_nil (List.cons_ne_nil x others)
  | cons m L' =>
      refine ⟨L', ?_⟩
      rcases List.mem_cons.mp (hPerm.mem_iff.mp List.mem_cons_self) with hFirst | hOther
      · rw [hFirst]
      · rcases List.mem_cons.mp (hPerm.mem_iff.mpr List.mem_cons_self) with hFirst | hLater
        · rw [hFirst]
        · have hLess := (List.pairwise_cons.mp hRecent).1 x hLater
          exact absurd (hMax m hOther) (not_le_of_gt hLess)

/-- The history that is popped begins with the most recent tweet. -/
theorem popped_first {x : TweetIterator} {rest : List TweetIterator}
    (hSame : (rest ++ [x]).Perm h) (hMax : ∀ t ∈ rest, seqOf t ≤ seqOf x)
    (hEach : ∀ t ∈ h, Recent t.tweets) (hRecent : Recent L)
    (hPerm : L.Perm (h.flatMap TweetIterator.tweets)) :
    ∃ L', L = x.begin :: L' ∧ L'.Perm (x.behind ++ rest.flatMap TweetIterator.tweets) := by
  have hAll : L.Perm (x.begin :: (x.behind ++ rest.flatMap TweetIterator.tweets)) := by
    refine hPerm.trans ((tweets_perm hSame).symm.trans ?_)
    rw [List.flatMap_append, List.flatMap_singleton]
    exact List.perm_append_comm
  obtain ⟨L', rfl⟩ := recent_begin hRecent hAll fun m hm => by
    rcases List.mem_append.mp hm with hBehind | hOther
    · have hx : Recent x.tweets := hEach x (hSame.mem_iff.mp (by simp))
      exact le_of_lt ((List.pairwise_cons.mp hx).1 m hBehind)
    · obtain ⟨t, ht, hmt⟩ := List.mem_flatMap.mp hOther
      have hEach' := hEach t (hSame.mem_iff.mp (List.mem_append_left _ ht))
      exact (begin_greatest hEach' hmt).trans (hMax t ht)
  exact ⟨L', rfl, List.Perm.cons_inv hAll⟩

/-- The tweets of the histories in the heap come out from the most recent one on. -/
theorem feed_loop_eq (n : Nat) (hHeap : heap.IsHeap h) (hEach : ∀ t ∈ h, Recent t.tweets)
    (hRecent : Recent L) (hPerm : L.Perm (h.flatMap TweetIterator.tweets)) :
    feed_loop heap n h = (L.take n).map Tweet.tid := by
  induction n generalizing h L with
  | zero => rfl
  | succ n ih =>
      cases h with
      | nil =>
          rw [List.perm_nil.mp hPerm]
          rfl
      | cons t₀ h =>
          obtain ⟨rest, x, hPop, hSame, hRest, hMax⟩ :=
            heap.pop_spec _ hHeap (List.cons_ne_nil t₀ h)
          have hEach' : ∀ t ∈ rest ++ [x], Recent t.tweets := fun t ht =>
            hEach t (hSame.mem_iff.mp ht)
          obtain ⟨L', rfl, hTail⟩ := popped_first hSame hMax hEach hRecent hPerm
          have hRecent' := (List.pairwise_cons.mp hRecent).2
          rw [feed_loop, hPop]
          simp only [List.isEmpty_cons, Bool.false_eq_true, if_false, List.getLast?_concat,
            List.dropLast_concat, List.take_succ_cons, List.map_cons]
          congr 1
          cases hBehind : x.behind with
          | nil =>
              rw [hBehind, List.nil_append] at hTail
              exact ih hRest (fun t ht => hEach' t (List.mem_append_left _ ht)) hRecent' hTail
          | cons next behind =>
              obtain ⟨hPush, hPushed⟩ := heap.push_spec rest ⟨next, behind⟩ hRest
              have hx := hEach' x (by simp)
              rw [Recent, TweetIterator.tweets, hBehind, List.pairwise_cons] at hx
              refine ih hPush (fun t ht => ?_) hRecent' (hTail.trans ?_)
              · rcases List.mem_append.mp (hPushed.mem_iff.mp ht) with hOld | hNew
                · exact hEach' t (List.mem_append_left _ hOld)
                · rw [List.mem_singleton.mp hNew]
                  exact hx.2
              · refine List.Perm.trans ?_ (tweets_perm hPushed).symm
                rw [hBehind, List.flatMap_append, List.flatMap_singleton]
                exact List.perm_append_comm

end Merge

/-! The news feed after every sequence of calls: what the members are, in terms of the calls. -/

section Specification

def tweetOf : Call → Option (Int × Int)
  | .postTweet userId tweetId => some (userId, tweetId)
  | _ => none

/-- The tweets of the object with their authors, from the oldest to the most recent. -/
def posted (calls : List Call) : List (Int × Int) := calls.filterMap tweetOf

def posts : Call → Bool
  | .postTweet _ _ | .elsewhere => true
  | _ => false

/-- Whether `u` follows `v` after a call. -/
def following (u v : Int) (before : Bool) : Call → Bool
  | .follow followerId followeeId => before || (followerId = u && followeeId = v)
  | .unfollow followerId followeeId => before && !(followerId = u && followeeId = v)
  | _ => before

/-- The last call about the two is a `follow`. -/
def follows (calls : List Call) (u v : Int) : Bool := calls.foldl (following u v) false

/-- The most recent tweets of `u`, and of those whom `u` follows. -/
def feed (calls : List Call) (u : Int) : List Int :=
  (((posted calls).reverse.filter fun p => p.1 = u || follows calls u p.1).take 10).map Prod.snd

end Specification

section Members

variable {calls : List Call} {log : List (Int × Tweet)} {t : Twitter}

def byAuthor (u : Int) (p : Int × Tweet) : Bool := p.1 = u

def isFollowee (calls : List Call) (log : List (Int × Tweet)) (u v : Int) : Prop :=
  if v = u then ∃ p ∈ log, p.1 = u else follows calls u v = true

/-- The members after the calls. The log has each tweet with its author and its number. -/
structure Members (calls : List Call) (log : List (Int × Tweet)) (t : Twitter) : Prop where
  gid_eq : t.gid = calls.countP posts
  log_posted : log.map (fun p => (p.1, p.2.tid)) = posted calls
  log_sorted : log.Pairwise fun p q => p.2.seq < q.2.seq
  log_le : ∀ p ∈ log, p.2.seq ≤ t.gid
  tweets_eq : ∀ u, t.allTweets u = (log.filter (byAuthor u)).map Prod.snd
  followees_nodup : ∀ u, (t.followees u).Nodup
  mem_followees : ∀ u v, v ∈ t.followees u ↔ isFollowee calls log u v

theorem insert_nodup {l : List Int} (h : l.Nodup) (v : Int) : (insert l v).Nodup := by
  unfold insert
  split
  · exact h
  · exact List.nodup_cons.mpr ⟨‹_›, h⟩

theorem mem_insert {l : List Int} {v w : Int} : w ∈ insert l v ↔ w = v ∨ w ∈ l := by
  unfold insert
  split
  · exact ⟨Or.inr, fun h => h.elim (fun h => h ▸ ‹_›) id⟩
  · exact List.mem_cons

theorem follows_concat (calls : List Call) (c : Call) (u v : Int) :
    follows (calls ++ [c]) u v = following u v (follows calls u v) c := by
  rw [follows, List.foldl_append]
  rfl

theorem posted_concat (calls : List Call) (c : Call) :
    posted (calls ++ [c]) = posted calls ++ (tweetOf c).toList := by
  rw [posted, List.filterMap_append]
  cases h : tweetOf c <;> simp [posted, h]

theorem gid_next (hGid : t.gid = calls.countP posts) {c : Call} (hPosts : posts c = true)
    (hBound : (calls ++ [c]).countP posts < 2 ^ 31) :
    int (t.gid + 1) = t.gid + 1 ∧ t.gid + 1 = (calls ++ [c]).countP posts := by
  rw [List.countP_append, List.countP_singleton, if_pos hPosts] at hBound ⊢
  rw [hGid]
  exact ⟨Int.bmod_eq_of_le (by omega) (by omega), rfl⟩

theorem members_empty : Members [] [] (empty 0) where
  gid_eq := rfl
  log_posted := rfl
  log_sorted := List.Pairwise.nil
  log_le p hp := absurd hp List.not_mem_nil
  tweets_eq _ := rfl
  followees_nodup _ := List.nodup_nil
  mem_followees u v := by simp [isFollowee, empty, follows]

/-- A call that posts no tweet changes the followees only. -/
theorem members_followees (h : Members calls log t) (c : Call) (hPosts : posts c = false)
    (hTweet : tweetOf c = none) (f : Int → List Int) (hNodup : ∀ u, (f u).Nodup)
    (hMem : ∀ u v, v ∈ f u ↔ isFollowee (calls ++ [c]) log u v) :
    Members (calls ++ [c]) log { t with followees := f } where
  gid_eq := by
    rw [List.countP_append, List.countP_singleton, hPosts]
    exact h.gid_eq
  log_posted := by
    rw [posted_concat, hTweet, h.log_posted]
    exact (List.append_nil _).symm
  log_sorted := h.log_sorted
  log_le := h.log_le
  tweets_eq := h.tweets_eq
  followees_nodup := hNodup
  mem_followees := hMem

/-- Only what the call does to the followees of the follower has to be looked at. -/
theorem isFollowee_update (h : Members calls log t) (c : Call) (a : Int) (l : List Int)
    (hOther : ∀ u v, u ≠ a → following u v (follows calls u v) c = follows calls u v)
    (hMem : ∀ v, v ∈ l ↔ isFollowee (calls ++ [c]) log a v) (u v : Int) :
    v ∈ Function.update t.followees a l u ↔ isFollowee (calls ++ [c]) log u v := by
  by_cases hu : u = a
  · rw [hu, Function.update_self]
    exact hMem v
  · rw [Function.update_of_ne hu, h.mem_followees]
    simp only [isFollowee, follows_concat, hOther u v hu]

theorem update_nodup (h : Members calls log t) (a : Int) {l : List Int} (hl : l.Nodup) (u : Int) :
    (Function.update t.followees a l u).Nodup := by
  by_cases hu : u = a
  · rw [hu, Function.update_self]
    exact hl
  · rw [Function.update_of_ne hu]
    exact h.followees_nodup u

theorem not_both {a b u v : Int} (hEq : a = b) (hv : v ≠ u) :
    (decide (a = u) && decide (b = v)) = false := by
  rw [Bool.and_eq_false_iff, decide_eq_false_iff_not, decide_eq_false_iff_not]
  by_cases hu : a = u
  · exact Or.inr fun hb => hv (hb.symm.trans (hEq.symm.trans hu))
  · exact Or.inl hu

theorem members_follow (h : Members calls log t) (a b : Int) :
    Members (calls ++ [.follow a b]) log (follow t a b) := by
  unfold follow
  split
  · refine members_followees h (.follow a b) rfl rfl _
      (update_nodup h a (insert_nodup (h.followees_nodup a) b)) (isFollowee_update h _ a _ ?_ ?_)
    · intro u v hu
      simp [following, Ne.symm hu]
    · intro v
      rw [mem_insert, h.mem_followees]
      unfold isFollowee
      by_cases hv : v = a
      · rw [if_pos hv, if_pos hv, hv]
        exact or_iff_right ‹a ≠ b›
      · rw [if_neg hv, if_neg hv, follows_concat]
        simp [following, or_comm, eq_comm (a := v)]
  · have hEq : a = b := not_not.mp ‹_›
    refine members_followees h (.follow a b) rfl rfl _ h.followees_nodup fun u v => ?_
    rw [h.mem_followees]
    unfold isFollowee
    by_cases hv : v = u
    · rw [if_pos hv, if_pos hv]
    · rw [if_neg hv, if_neg hv, follows_concat]
      simp [following, not_both hEq hv]

theorem members_unfollow (h : Members calls log t) (a b : Int) :
    Members (calls ++ [.unfollow a b]) log (unfollow t a b) := by
  unfold unfollow
  split
  · refine members_followees h (.unfollow a b) rfl rfl _
      (update_nodup h a ((h.followees_nodup a).erase b)) (isFollowee_update h _ a _ ?_ ?_)
    · intro u v hu
      simp [following, Ne.symm hu]
    · intro v
      rw [(h.followees_nodup a).mem_erase_iff, h.mem_followees]
      unfold isFollowee
      by_cases hv : v = a
      · rw [if_pos hv, if_pos hv, hv]
        exact and_iff_right ‹a ≠ b›
      · rw [if_neg hv, if_neg hv, follows_concat]
        simp [following, and_comm, eq_comm (a := v)]
  · have hEq : a = b := not_not.mp ‹_›
    refine members_followees h (.unfollow a b) rfl rfl _ h.followees_nodup fun u v => ?_
    rw [h.mem_followees]
    unfold isFollowee
    by_cases hv : v = u
    · rw [if_pos hv, if_pos hv]
    · rw [if_neg hv, if_neg hv, follows_concat]
      simp [following, not_both hEq hv]

theorem members_getNewsFeed (h : Members calls log t) (u : Int) :
    Members (calls ++ [.getNewsFeed u]) log t := by
  refine members_followees h (.getNewsFeed u) rfl rfl _ h.followees_nodup fun a b => ?_
  rw [h.mem_followees]
  simp only [isFollowee, follows_concat, following]

theorem members_elsewhere (h : Members calls log t)
    (hBound : (calls ++ [Call.elsewhere]).countP posts < 2 ^ 31) :
    Members (calls ++ [.elsewhere]) log { t with gid := int (t.gid + 1) } := by
  obtain ⟨hInt, hCount⟩ := gid_next h.gid_eq rfl hBound
  rw [hInt]
  refine ⟨hCount, ?_, h.log_sorted, ?_, h.tweets_eq, h.followees_nodup, ?_⟩
  · rw [posted_concat, h.log_posted]
    exact (List.append_nil _).symm
  · intro p hp
    exact (h.log_le p hp).trans (Int.le_of_lt (Int.lt_succ _))
  · intro a b
    rw [h.mem_followees]
    simp only [isFollowee, follows_concat, following]

theorem members_postTweet (h : Members calls log t) (u m : Int)
    (hBound : (calls ++ [Call.postTweet u m]).countP posts < 2 ^ 31) :
    Members (calls ++ [.postTweet u m]) (log ++ [(u, ⟨m, t.gid + 1⟩)]) (postTweet t u m) := by
  obtain ⟨hInt, hCount⟩ := gid_next h.gid_eq rfl hBound
  rw [postTweet, hInt]
  refine ⟨hCount, ?_, ?_, ?_, ?_, ?_, ?_⟩
  · rw [posted_concat, List.map_append, h.log_posted]
    rfl
  · rw [List.pairwise_append]
    refine ⟨h.log_sorted, List.pairwise_singleton _ _, fun p hp q hq => ?_⟩
    rw [List.mem_singleton.mp hq]
    exact Int.lt_add_one_of_le (h.log_le p hp)
  · intro p hp
    rcases List.mem_append.mp hp with hOld | hNew
    · exact (h.log_le p hOld).trans (Int.le_of_lt (Int.lt_succ _))
    · rw [List.mem_singleton.mp hNew]
  · intro v
    rw [List.filter_append, List.map_append, ← h.tweets_eq]
    by_cases hv : v = u
    · rw [hv]
      simp [byAuthor]
    · simp [byAuthor, hv, Ne.symm hv]
  · exact update_nodup h u (insert_nodup (h.followees_nodup u) u)
  · intro v w
    by_cases hv : v = u
    · rw [hv]
      simp only [Function.update_self]
      rw [mem_insert, h.mem_followees]
      unfold isFollowee
      by_cases hw : w = u
      · simp [hw]
      · simp [hw, follows_concat, following]
    · simp only [Function.update_of_ne hv]
      rw [h.mem_followees]
      unfold isFollowee
      simp [follows_concat, following, Ne.symm hv]

/-- What one call preserves. -/
theorem members_call (h : Members calls log t) (c : Call)
    (hBound : (calls ++ [c]).countP posts < 2 ^ 31) :
    ∃ log', Members (calls ++ [c]) log' (call t c) := by
  cases c with
  | postTweet u m => exact ⟨_, members_postTweet h u m hBound⟩
  | follow a b => exact ⟨log, members_follow h a b⟩
  | unfollow a b => exact ⟨log, members_unfollow h a b⟩
  | getNewsFeed u => exact ⟨log, members_getNewsFeed h u⟩
  | elsewhere => exact ⟨log, members_elsewhere h hBound⟩

theorem run_concat (calls : List Call) (c : Call) : run (calls ++ [c]) = call (run calls) c := by
  rw [run, List.foldl_append]
  rfl

/-- What a whole run has done. -/
theorem members_run (calls : List Call) (hBound : calls.countP posts < 2 ^ 31) :
    ∃ log, Members calls log (run calls) := by
  induction calls using List.reverseRecOn with
  | nil => exact ⟨[], members_empty⟩
  | append_singleton calls c ih =>
      have hBefore : calls.countP posts < 2 ^ 31 := by
        rw [List.countP_append] at hBound
        omega
      obtain ⟨log, h⟩ := ih hBefore
      rw [run_concat]
      exact members_call h c hBound

end Members
end CppPerf.Feed.NewsFeed
