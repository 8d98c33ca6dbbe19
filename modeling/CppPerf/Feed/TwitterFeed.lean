import CppPerf.Feed.Twitter
import Mathlib.Data.List.Perm.Basic

/-! The news feed has the ten most recent tweets, as long as the counter does not overflow. -/
namespace CppPerf.Feed.NewsFeed

open Text HeapRange

section Feed

variable {calls : List Call} {log : List (Int × Tweet)} {t : Twitter}

theorem iterator_tweets (l : List Tweet) :
    (iterator l).toList.flatMap TweetIterator.tweets = l.reverse := by
  unfold iterator
  cases l.reverse <;> simp [TweetIterator.tweets]

theorem tweets_of_order (f : Int → List Tweet) (order : List Int) :
    (order.filterMap fun v => iterator (f v)).flatMap TweetIterator.tweets =
      order.flatMap fun v => (f v).reverse := by
  induction order with
  | nil => rfl
  | cons v order ih =>
      rw [List.flatMap_cons, ← ih, ← iterator_tweets (f v)]
      cases h : iterator (f v) <;> simp [h]

/-- Each tweet of the log is in the history of its author only. -/
theorem log_perm {order : List Int} (hNodup : order.Nodup) :
    (log.filter fun p => p.1 ∈ order).Perm (order.flatMap fun v => log.filter (byAuthor v)) := by
  induction order with
  | nil => simp
  | cons v order ih =>
      obtain ⟨hNew, hRest⟩ := List.nodup_cons.mp hNodup
      rw [List.flatMap_cons]
      refine (List.filter_append_perm (byAuthor v) _).symm.trans
        (List.Perm.append (List.Perm.of_eq ?_) ((List.Perm.of_eq ?_).trans (ih hRest)))
      · rw [List.filter_filter]
        refine List.filter_congr fun p _ => ?_
        by_cases hp : p.1 = v <;> simp [byAuthor, hp]
      · rw [List.filter_filter]
        refine List.filter_congr fun p _ => ?_
        by_cases hp : p.1 = v
        · simp [byAuthor, hp, hNew]
        · simp [byAuthor, hp]

theorem flatMap_reverse_perm (f : Int → List Tweet) (order : List Int) :
    (order.flatMap fun v => (f v).reverse).Perm (order.flatMap f) :=
  List.Perm.flatMap_left order fun v _ => List.reverse_perm (f v)

/-- The tweets of the log by the given authors, from the most recent one on. -/
def recentTweets (log : List (Int × Tweet)) (order : List Int) : List Tweet :=
  ((log.filter fun p => p.1 ∈ order).map Prod.snd).reverse

theorem recentTweets_recent (h : Members calls log t) (order : List Int) :
    Recent (recentTweets log order) := by
  rw [Recent, recentTweets, List.pairwise_reverse, List.pairwise_map]
  exact h.log_sorted.filter _

theorem recentTweets_perm (h : Members calls log t) {order : List Int} (hNodup : order.Nodup) :
    (recentTweets log order).Perm
      ((order.filterMap fun f => iterator (t.allTweets f)).flatMap TweetIterator.tweets) := by
  rw [tweets_of_order]
  refine (List.reverse_perm _).trans (List.Perm.trans ?_ (flatMap_reverse_perm _ _).symm)
  refine ((log_perm hNodup).map Prod.snd).trans (List.Perm.of_eq ?_)
  rw [List.map_flatMap, funext h.tweets_eq]

theorem history_recent (h : Members calls log t) {u : Int} {i : TweetIterator}
    (hi : iterator (t.allTweets u) = some i) : Recent i.tweets := by
  have hAll := iterator_tweets (t.allTweets u)
  rw [hi] at hAll
  simp only [Option.toList_some, List.flatMap_singleton] at hAll
  rw [hAll, Recent, List.pairwise_reverse, h.tweets_eq, List.pairwise_map]
  exact h.log_sorted.filter _

/-- The order in which the followees are visited does not matter. -/
theorem getNewsFeed_eq (h : Members calls log t) (heap : HeapAlgorithms seqOf) {order : List Int}
    (hNodup : order.Nodup) :
    getNewsFeed heap t order = ((recentTweets log order).take 10).map Tweet.tid := by
  obtain ⟨hHeap, hPerm⟩ := heap.make_spec (order.filterMap fun f => iterator (t.allTweets f))
  refine feed_loop_eq 10 hHeap (fun i hi => ?_) (recentTweets_recent h order)
    ((recentTweets_perm h hNodup).trans (tweets_perm hPerm).symm)
  obtain ⟨u, -, hu⟩ := List.mem_filterMap.mp (hPerm.mem_iff.mp hi)
  exact history_recent h hu

theorem mem_followees_iff (h : Members calls log t) (u : Int) {p : Int × Tweet} (hp : p ∈ log) :
    p.1 ∈ t.followees u ↔ p.1 = u ∨ follows calls u p.1 = true := by
  rw [h.mem_followees]
  unfold isFollowee
  by_cases hu : p.1 = u
  · rw [if_pos hu]
    exact iff_of_true ⟨p, hp, hu⟩ (Or.inl hu)
  · rw [if_neg hu, or_iff_right hu]

theorem feed_eq (h : Members calls log t) (u : Int) {order : List Int}
    (hOrder : order.Perm (t.followees u)) :
    ((recentTweets log order).take 10).map Tweet.tid = feed calls u := by
  rw [feed, ← h.log_posted, ← List.map_reverse, List.filter_map, ← List.map_take, List.map_map,
    recentTweets, ← List.map_reverse, ← List.filter_reverse, ← List.map_take, List.map_map]
  refine congrArg (fun l => (l.take 10).map fun p : Int × Tweet => p.2.tid)
    (List.filter_congr fun p hp => ?_)
  have hMem := mem_followees_iff h u (List.mem_reverse.mp hp)
  rw [← hOrder.mem_iff] at hMem
  simp [hMem]

/-- The ten most recent tweets, from the most recent one on, after every sequence of calls in
which the counter stays in its range: whatever heap is made of the iterators, and in whatever
order the followees are visited. -/
theorem getNewsFeed_spec (calls : List Call) (hBound : calls.countP posts < 2 ^ 31)
    (heap : HeapAlgorithms seqOf) (u : Int) (order : List Int)
    (hOrder : order.Perm ((run calls).followees u)) :
    getNewsFeed heap (run calls) order = feed calls u := by
  obtain ⟨log, h⟩ := members_run calls hBound
  rw [getNewsFeed_eq h heap (hOrder.nodup_iff.mpr (h.followees_nodup u)), feed_eq h u hOrder]

theorem getNewsFeed_spec_two :
    let calls := [Call.postTweet 1 5, .unfollow 1 2, .follow 1 2, .postTweet 2 6, .postTweet 1 7,
      .postTweet 2 8]
    getNewsFeed (sorted seqOf) (run calls) [1, 2] = [8, 7, 6, 5] := by
  refine (getNewsFeed_spec _ (by decide) (sorted seqOf) 1 _ ?_).trans (by decide)
  decide

end Feed

section Overflow

/-- A user posts the first tweets; two others post the last number and the one after it. -/
def overflow (n : Nat) : List Call :=
  List.replicate n (.postTweet 4 0) ++
    [.postTweet 1 10, .postTweet 2 20, .follow 3 1, .follow 3 2]

theorem posted_replicate (n : Nat) :
    posted (List.replicate n (.postTweet 4 0)) = List.replicate n (4, 0) :=
  List.filterMap_replicate_of_some rfl

theorem follows_replicate (n : Nat) (u v : Int) :
    follows (List.replicate n (.postTweet 4 0)) u v = false := by
  rw [follows]
  induction n with
  | zero => rfl
  | succ n ih => exact ih

theorem feed_overflow (n : Nat) : feed (overflow n) 3 = [20, 10] := by
  have hFollows : ∀ v, follows (overflow n) 3 v = (decide (1 = v) || decide (2 = v)) := fun v => by
    have hFirst := follows_replicate n 3 v
    unfold follows at hFirst
    rw [follows, overflow, List.foldl_append, hFirst]
    simp [following]
  have hPosted : posted (overflow n) = List.replicate n (4, 0) ++ [(1, 10), (2, 20)] := by
    rw [overflow, posted, List.filterMap_append, ← posted, posted_replicate]
    rfl
  rw [feed, hPosted, List.reverse_append, List.filter_append, List.reverse_replicate,
    List.filter_replicate]
  simp [hFollows]

/-- The first tweets bring the counter up, and leave the three users alone. -/
theorem run_replicate {n : Nat} (hn : n < 2 ^ 31) :
    let t := run (List.replicate n (.postTweet 4 0))
    t.gid = n ∧ (∀ u, u ≠ 4 → t.allTweets u = []) ∧ ∀ u, u ≠ 4 → t.followees u = [] := by
  have hCount : (List.replicate n (Call.postTweet 4 0)).countP posts = n := by
    rw [List.countP_replicate]
    rfl
  obtain ⟨log, h⟩ := members_run (List.replicate n (.postTweet 4 0)) (hCount.symm ▸ hn)
  have hAuthor : ∀ p ∈ log, p.1 = 4 := fun p hp => by
    have hMem := List.mem_map_of_mem (f := fun p : Int × Tweet => (p.1, p.2.tid)) hp
    rw [h.log_posted, posted_replicate] at hMem
    exact congrArg Prod.fst (List.eq_of_mem_replicate hMem)
  refine ⟨by rw [h.gid_eq, hCount], fun u hu => ?_, fun u hu => ?_⟩
  · rw [h.tweets_eq, List.map_eq_nil_iff, List.filter_eq_nil_iff]
    intro p hp hAuthored
    exact hu ((of_decide_eq_true hAuthored).symm.trans (hAuthor p hp))
  · refine List.eq_nil_iff_forall_not_mem.mpr fun v hv => ?_
    rw [h.mem_followees] at hv
    unfold isFollowee at hv
    split at hv
    · obtain ⟨p, hp, hAuthored⟩ := hv
      exact hu (hAuthored.symm.trans (hAuthor p hp))
    · rw [follows_replicate] at hv
      exact Bool.false_ne_true hv

/-- The last tweet gets the least number there is. -/
theorem run_overflow {n : Nat} (hn : n = 2 ^ 31 - 2) :
    (run (overflow n)).allTweets 1 = [⟨10, 2 ^ 31 - 1⟩] ∧
      (run (overflow n)).allTweets 2 = [⟨20, -2 ^ 31⟩] ∧
      (run (overflow n)).followees 3 = [2, 1] := by
  obtain ⟨hGid, hTweets, hFollowees⟩ := run_replicate (hn ▸ by decide : n < 2 ^ 31)
  have hLast : int ((n : Int) + 1) = 2 ^ 31 - 1 := by
    rw [hn]
    rfl
  have hWrapped : int 2147483648 = -2147483648 := rfl
  rw [overflow, run, List.foldl_append, ← run]
  generalize run (List.replicate n (.postTweet 4 0)) = t at *
  simp [call, postTweet, follow, insert, Function.update, hGid, hTweets, hFollowees, hLast,
    hWrapped]

theorem not_getNewsFeed_spec :
    ¬ ∀ (calls : List Call) (heap : HeapAlgorithms seqOf) (u : Int) (order : List Int),
      order.Perm ((run calls).followees u) → getNewsFeed heap (run calls) order = feed calls u := by
  intro h
  obtain ⟨n, hn⟩ : ∃ n, n = 2 ^ 31 - 2 := ⟨_, rfl⟩
  obtain ⟨hOne, hTwo, hFollowees⟩ := run_overflow hn
  have hFeed := h (overflow n) (sorted seqOf) 3 [2, 1] (List.Perm.of_eq hFollowees.symm)
  have hHeap : [2, 1].filterMap (fun f => iterator ((run (overflow n)).allTweets f)) =
      [⟨⟨20, -2 ^ 31⟩, []⟩, ⟨⟨10, 2 ^ 31 - 1⟩, []⟩] := by
    simp [hOne, hTwo, iterator]
  rw [feed_overflow, getNewsFeed, hHeap] at hFeed
  exact absurd hFeed (by decide)

end Overflow

end CppPerf.Feed.NewsFeed
