import CppPerf.Semantics.OrderedMap
import CppPerf.Semantics.Run
import Mathlib.Algebra.Ring.Int.Defs
import Mathlib.Data.List.Count
import Mathlib.Data.List.Find
import Mathlib.Order.MinMax
import Mathlib.Order.OrderDual

/-! The stacks of `stack.cpp` that keep something beside their elements: `FreqStack`, `MinStack`
and `StockSpanner`, and the search `find132pattern`. The top of a stack comes first. Integers are
unbounded. -/
namespace CppPerf.Sequences

open Ordered OrderDual Transition

/-- A count that is not in the map is zero. The greatest frequency comes first. -/
structure FreqStack where
  freq : Int → Int
  freq_stack : OrderedMap Intᵒᵈ (List Int)

namespace FreqStack

def construct : FreqStack := ⟨fun _ => 0, .empty⟩

def push (s : FreqStack) (x : Int) : FreqStack :=
  let count := s.freq x + 1
  ⟨Function.update s.freq x count,
    s.freq_stack.set (toDual count) (x :: (s.freq_stack.lookup (toDual count)).getD [])⟩

/-- There must be a first stack, and an element on it. -/
def pop (s : FreqStack) : Option (FreqStack × Int) :=
  match s.freq_stack.first with
  | some (count, x :: rest) =>
      some (⟨Function.update s.freq x (s.freq x - 1),
        if rest.isEmpty then s.freq_stack.erase count else s.freq_stack.set count rest⟩, x)
  | _ => none

inductive Call where
  | push (x : Int)
  | pop

/-- With the elements that were popped. -/
def step : Step (FreqStack × List Int) Call
  | (s, popped), .push x => some (s.push x, popped)
  | (s, popped), .pop => s.pop.map fun (s, x) => (s, popped ++ [x])

/-- The newest of the elements that are there most often. -/
def mostFrequent (l : List Int) : Option Int :=
  l.find? fun x => decide (∀ y ∈ l, l.count y ≤ l.count x)

/-- The same calls on the elements, newest first. -/
def spec : Step (List Int × List Int) Call
  | (l, popped), .push x => some (x :: l, popped)
  | (l, popped), .pop => (mostFrequent l).map fun x => (l.erase x, popped ++ [x])

/-- The elements that came when `k - 1` equal ones were there. -/
def level (k : Int) : List Int → List Int
  | [] => []
  | x :: l => if l.count x + 1 = k then x :: level k l else level k l

structure Represents (s : FreqStack) (l : List Int) : Prop where
  freq_eq : ∀ x, s.freq x = l.count x
  lookup_eq : ∀ k, s.freq_stack.lookup (toDual k) =
    if level k l = [] then none else some (level k l)

variable {s : FreqStack} {l : List Int} {k : Int} {x y : Int}

theorem mem_level : y ∈ level k l ↔ 1 ≤ k ∧ k ≤ l.count y := by
  induction l with
  | nil =>
      simp only [level, List.not_mem_nil, List.count_nil, false_iff]
      omega
  | cons x l ih =>
      rw [level, List.count_cons]
      by_cases hEq : x = y
      · subst hEq
        simp only [BEq.rfl, if_true]
        split_ifs with hk
        · simp only [List.mem_cons, true_or, true_iff]
          omega
        · rw [ih]
          omega
      · have hNe : (x == y) = false := by simpa using hEq
        simp only [hNe, Bool.false_eq_true, if_false, Nat.add_zero]
        split_ifs with hk
        · rw [List.mem_cons, or_iff_right (Ne.symm hEq), ih]
        · exact ih

/-- Without the newest of some equal elements, the last level that it was in loses it. -/
theorem level_erase (hx : x ∈ l) :
    level k (l.erase x) = if l.count x = k then (level k l).erase x else level k l := by
  induction l with
  | nil => cases hx
  | cons y l ih =>
      by_cases hEq : y = x
      · subst hEq
        rw [List.erase_cons_head, level, List.count_cons_self]
        push_cast
        split_ifs with hk
        · rw [List.erase_cons_head]
        · rfl
      · have hMem : x ∈ l := (List.mem_cons.mp hx).resolve_left (Ne.symm hEq)
        have hNe : ¬((y == x) = true) := by simpa using hEq
        rw [List.erase_cons_tail hNe, level, level, ih hMem, List.count_erase_of_ne hEq,
          List.count_cons_of_ne hEq]
        split_ifs with hy hx hx
        · rw [List.erase_cons_tail hNe]
        all_goals rfl

/-- At the last level every element is the newest of its kind. -/
theorem head?_level (hMax : ∀ y, l.count y ≤ k) :
    (level k l).head? = l.find? fun y => decide ((l.count y : Int) = k) := by
  have hRest : ∀ newer older, l = newer ++ older → (∀ y ∈ newer, (l.count y : Int) ≠ k) →
      (level k older).head? = older.find? fun y => decide ((l.count y : Int) = k) := by
    intro newer older hl hNewer
    induction older generalizing newer with
    | nil => rfl
    | cons y older ih =>
        have hCount : l.count y = newer.count y + (older.count y + 1) := by
          rw [hl, List.count_append, List.count_cons_self]
        have hLe := hMax y
        rw [level, List.find?_cons]
        by_cases hy : (l.count y : Int) = k
        · have hNew : newer.count y = 0 := List.count_eq_zero.mpr fun hMem => hNewer y hMem hy
          rw [decide_eq_true hy, if_pos (by omega)]
          rfl
        · rw [decide_eq_false hy, if_neg (by omega)]
          apply ih (newer ++ [y]) (by rw [hl, List.append_cons])
          intro z hz
          rcases List.mem_append.mp hz with hz | hz
          · exact hNewer z hz
          · rwa [List.mem_singleton.mp hz]
  exact hRest [] l rfl fun y hy => absurd hy List.not_mem_nil

theorem construct_represents : construct.Represents [] where
  freq_eq _ := rfl
  lookup_eq _ := rfl

theorem Represents.push (h : s.Represents l) (x : Int) : (s.push x).Represents (x :: l) where
  freq_eq y := by
    by_cases hy : y = x
    · subst hy
      simp [FreqStack.push, h.freq_eq]
    · simp [FreqStack.push, h.freq_eq, hy, List.count_cons_of_ne (Ne.symm hy)]
  lookup_eq k := by
    rw [FreqStack.push, level, h.freq_eq]
    by_cases hk : l.count x + 1 = k
    · rw [if_pos hk, if_neg (List.cons_ne_nil _ _), hk, OrderedMap.lookup_set_self, h.lookup_eq]
      split_ifs with hEmpty
      · rw [hEmpty, Option.getD_none]
      · rw [Option.getD_some]
    · have hNe : toDual k ≠ toDual ((l.count x : Int) + 1) := fun hEq =>
        hk (toDual.injective hEq).symm
      rw [if_neg hk, OrderedMap.lookup_set_of_ne _ _ hNe, h.lookup_eq]

/-- The first stack is the last level that is not empty. -/
theorem Represents.first_eq (h : s.Represents l) (hl : l ≠ []) :
    ∃ k x rest, s.freq_stack.first = some (toDual k, x :: rest) ∧ level k l = x :: rest ∧
      ∀ y, l.count y ≤ k := by
  have hLevel : ∀ k stack, (toDual k, stack) ∈ s.freq_stack.entries ↔
      level k l = stack ∧ stack ≠ [] := by
    intro k stack
    rw [← OrderedMap.lookup_eq_some_iff, h.lookup_eq]
    split_ifs with hEmpty
    · simp only [false_iff, not_and_not_right]
      rintro rfl
      exact hEmpty
    · simp only [Option.some.injEq]
      exact ⟨fun hEq => ⟨hEq, hEq ▸ hEmpty⟩, And.left⟩
  cases hFirst : s.freq_stack.first with
  | none =>
      obtain ⟨x, hx⟩ := List.exists_mem_of_ne_nil l hl
      have hOne : x ∈ level 1 l := mem_level.mpr ⟨le_refl 1, by
        have := List.count_pos_iff.mpr hx
        omega⟩
      exact absurd ((hLevel 1 _).mpr ⟨rfl, List.ne_nil_of_mem hOne⟩)
        ((OrderedMap.first_eq_none_iff _).mp hFirst _)
  | some e =>
      obtain ⟨hMem, hBest⟩ := OrderedMap.first_eq_some _ hFirst
      obtain ⟨hEq, hNe⟩ := (hLevel (ofDual e.1) e.2).mp hMem
      obtain ⟨x, rest, hStack⟩ := List.exists_cons_of_ne_nil hNe
      refine ⟨ofDual e.1, x, rest, ?_, by rw [hEq, hStack], fun y => ?_⟩
      · rw [← hStack]
        rfl
      · by_contra hLt
        have hPos : 1 ≤ ofDual e.1 := (mem_level.mp (hEq ▸ hStack ▸ List.mem_cons_self)).1
        have hy : y ∈ level (l.count y) l := mem_level.mpr ⟨by omega, le_refl _⟩
        rcases hBest _ ((hLevel (l.count y) _).mpr ⟨rfl, List.ne_nil_of_mem hy⟩) with hSame | hLater
        · rw [← hSame] at hLt
          exact hLt (le_refl _)
        · have hBelow : (l.count y : Int) < ofDual e.1 := hLater
          omega

theorem Represents.pop (h : s.Represents l) :
    Option.Rel (fun r x => r.2 = x ∧ r.1.Represents (l.erase x)) s.pop (mostFrequent l) := by
  by_cases hl : l = []
  · subst hl
    have hFirst : s.freq_stack.first = none := by
      rw [OrderedMap.first_eq_none_iff]
      intro e he
      have hLookup := (h.lookup_eq (ofDual e.1)).symm.trans
        ((OrderedMap.lookup_eq_some_iff _).mpr he)
      simp [level] at hLookup
    rw [FreqStack.pop, hFirst]
    exact .none
  · obtain ⟨k, x, rest, hFirst, hLevel, hMax⟩ := h.first_eq hl
    have hx : x ∈ level k l := hLevel ▸ List.mem_cons_self
    have hCount : (l.count x : Int) = k := le_antisymm (hMax x) (mem_level.mp hx).2
    have hMem : x ∈ l := by
      have := (mem_level.mp hx).1
      exact List.count_pos_iff.mp (by omega)
    have hFound : mostFrequent l = some x := by
      have hHead := head?_level hMax
      rw [hLevel, List.head?_cons] at hHead
      rw [mostFrequent, hHead]
      apply List.find?_congr
      intro y hy
      rw [decide_eq_decide]
      constructor
      · intro hMost
        have := hMost x hMem
        have := hMax y
        omega
      · intro hEq z hz
        have := hMax z
        omega
    rw [FreqStack.pop, hFirst, hFound]
    refine .some ⟨rfl, ?_, ?_⟩
    · intro y
      by_cases hy : y = x
      · subst hy
        have := List.count_pos_iff.mpr hMem
        simp only [Function.update_self, h.freq_eq, List.count_erase_self]
        omega
      · simp only [Function.update_of_ne hy, h.freq_eq, List.count_erase_of_ne hy]
    · intro j
      rw [level_erase hMem, hCount]
      by_cases hj : k = j
      · subst hj
        rw [if_pos rfl, hLevel, List.erase_cons_head]
        cases rest with
        | nil => exact OrderedMap.lookup_erase_self _ _
        | cons y rest => exact OrderedMap.lookup_set_self _ _ _
      · have hNe : toDual j ≠ toDual k := fun hEq => hj (toDual.injective hEq).symm
        rw [if_neg hj, ← h.lookup_eq]
        cases rest with
        | nil => exact OrderedMap.lookup_erase_of_ne _ hNe
        | cons y rest => exact OrderedMap.lookup_set_of_ne _ _ hNe

theorem step_rel (state : FreqStack × List Int) (v : List Int × List Int) (call : Call)
    (hState : state.1.Represents v.1 ∧ state.2 = v.2) :
    Option.Rel (fun state v => state.1.Represents v.1 ∧ state.2 = v.2) (step state call)
      (spec v call) := by
  obtain ⟨s, popped⟩ := state
  obtain ⟨l, popped'⟩ := v
  obtain ⟨hKeeps, rfl⟩ := hState
  cases call with
  | push x => exact .some ⟨hKeeps.push x, rfl⟩
  | pop =>
      refine rel_map hKeeps.pop ?_
      rintro ⟨s, _⟩ x ⟨rfl, hPop⟩
      exact ⟨hPop, rfl⟩

example : (run spec ([], []) [.push 5, .push 7, .push 5, .push 7, .push 4, .push 5, .pop, .pop,
    .pop, .pop]).map Prod.snd = some [5, 7, 5, 4] := by decide

end FreqStack

/-- A price with the number of days that it covers. -/
structure StockSpanner where
  prices_stack : List (Int × Int)

namespace StockSpanner

def construct : StockSpanner := ⟨[]⟩

/-- The loop of `next`: the count and what is left on the stack. -/
def nextLoop (price : Int) : (count : Int) → List (Int × Int) → Int × List (Int × Int)
  | count, [] => (count, [])
  | count, (p, c) :: rest =>
      if p ≤ price then nextLoop price (count + c) rest else (count, (p, c) :: rest)

def next (s : StockSpanner) (price : Int) : StockSpanner × Int :=
  let (count, rest) := nextLoop price 1 s.prices_stack
  (⟨(price, count) :: rest⟩, count)

/-- The stack cuts the prices, newest first, into blocks that start with their greatest price. -/
def Blocks : List (Int × Int) → List Int → Prop
  | [], prices => prices = []
  | (p, c) :: rest, prices => ∃ block older, prices = p :: block ++ older ∧
      c = block.length + 1 ∧ (∀ q ∈ block, q ≤ p) ∧ Blocks rest older

/-- The loop pops whole blocks, up to the first price that is greater. -/
theorem nextLoop_spec {stack : List (Int × Int)} {prices : List Int} (h : Blocks stack prices)
    (price count : Int) :
    ∃ block older, prices = block ++ older ∧ (∀ q ∈ block, q ≤ price) ∧
      (∀ q ∈ older.head?, price < q) ∧ Blocks (nextLoop price count stack).2 older ∧
      (nextLoop price count stack).1 = count + block.length := by
  induction stack generalizing prices count with
  | nil =>
      obtain rfl : prices = [] := h
      exact ⟨[], [], rfl, by simp, by simp, rfl, by simp [nextLoop]⟩
  | cons e rest ih =>
      obtain ⟨p, c⟩ := e
      obtain ⟨block, older, rfl, hc, hBlock, hOlder⟩ := h
      rw [nextLoop]
      split_ifs with hp
      · obtain ⟨more, older', rfl, hMore, hHead, hRest, hCount⟩ := ih hOlder (count + c)
        refine ⟨p :: block ++ more, older', by simp, ?_, hHead, hRest, ?_⟩
        · intro q hq
          simp only [List.cons_append, List.mem_cons, List.mem_append] at hq
          rcases hq with rfl | hq | hq
          · exact hp
          · exact le_trans (hBlock q hq) hp
          · exact hMore q hq
        · rw [hCount, hc]
          simp only [List.cons_append, List.length_cons, List.length_append]
          omega
      · refine ⟨[], p :: block ++ older, rfl, by simp, ?_, ⟨block, older, rfl, hc, hBlock, hOlder⟩,
          by simp⟩
        simpa using hp

theorem takeWhile_block {price : Int} {block older : List Int} (hBlock : ∀ q ∈ block, q ≤ price)
    (hOlder : ∀ q ∈ older.head?, price < q) :
    (block ++ older).takeWhile (fun q => decide (q ≤ price)) = block := by
  rw [List.takeWhile_append_of_pos (by simpa using hBlock)]
  cases older with
  | nil => simp
  | cons q older =>
      have hq : price < q := hOlder q rfl
      rw [List.takeWhile_cons_of_neg (by simpa using hq), List.append_nil]

theorem blocks_foldl (prices : List Int) :
    Blocks (prices.foldl (fun s price => (s.next price).1) construct).prices_stack
      prices.reverse := by
  induction prices using List.reverseRecOn with
  | nil => rfl
  | append_singleton prices price ih =>
      rw [List.foldl_append, List.reverse_append]
      obtain ⟨block, older, hPrices, hBlock, -, hRest, hCount⟩ := nextLoop_spec ih price 1
      refine ⟨block, older, ?_, ?_, hBlock, hRest⟩
      · rw [List.reverse_singleton, List.singleton_append, hPrices, List.cons_append]
      · rw [hCount, Int.add_comm]

end StockSpanner

/-- The old minimum lies below every element that is not greater than it. -/
structure MinStack where
  stack : List Int
  min_val : Int

namespace MinStack

def construct : MinStack := ⟨[], 2 ^ 31 - 1⟩

def push (s : MinStack) (x : Int) : MinStack :=
  if x ≤ s.min_val then ⟨x :: s.min_val :: s.stack, x⟩ else ⟨x :: s.stack, s.min_val⟩

def top (s : MinStack) : Option Int := s.stack.head?

def pop (s : MinStack) : Option MinStack := do
  let last ← s.top
  let s := { s with stack := s.stack.tail }
  if last = s.min_val then
    let min_val ← s.top
    some ⟨s.stack.tail, min_val⟩
  else some s

inductive Call where
  | push (x : Int)
  | pop
  | top
  | getMin

/-- With the answers of `top` and `getMin`. -/
def step : Step (MinStack × List Int) Call
  | (s, answers), .push x => some (s.push x, answers)
  | (s, answers), .pop => s.pop.map (·, answers)
  | (s, answers), .top => s.top.map fun x => (s, answers ++ [x])
  | (s, answers), .getMin => some (s, answers ++ [s.min_val])

/-- The least element, or `INT32_MAX` if there is none. -/
def least (l : List Int) : Int := l.foldr min (2 ^ 31 - 1)

/-- The same calls on the elements, newest first. -/
def spec : Step (List Int × List Int) Call
  | (l, answers), .push x => some (x :: l, answers)
  | (l, answers), .pop => if l = [] then none else some (l.tail, answers)
  | (l, answers), .top => l.head?.map fun x => (l, answers ++ [x])
  | (l, answers), .getMin => some (l, answers ++ [least l])

/-- What the stack holds for these elements. -/
def encode : List Int → List Int
  | [] => []
  | x :: l => if x ≤ least l then x :: least l :: encode l else x :: encode l

theorem head?_encode (l : List Int) : (encode l).head? = l.head? := by
  cases l with
  | nil => rfl
  | cons x l =>
      rw [encode]
      split_ifs <;> rfl

theorem push_encode (l : List Int) (x : Int) :
    (⟨encode l, least l⟩ : MinStack).push x = ⟨encode (x :: l), least (x :: l)⟩ := by
  have hLeast : least (x :: l) = min x (least l) := rfl
  rw [push, encode, hLeast]
  split_ifs with hx
  · rw [min_eq_left hx]
  · rw [min_eq_right (not_le.mp hx).le]

theorem pop_encode (l : List Int) (x : Int) :
    (⟨encode (x :: l), least (x :: l)⟩ : MinStack).pop = some ⟨encode l, least l⟩ := by
  have hLeast : least (x :: l) = min x (least l) := rfl
  rw [encode, hLeast]
  split_ifs with hx
  · rw [min_eq_left hx]
    simp [pop, top]
  · rw [min_eq_right (by omega)]
    have hNe : x ≠ least l := by omega
    simp [pop, top, hNe]

theorem step_rel (state : MinStack × List Int) (v : List Int × List Int) (call : Call)
    (hState : state.1 = ⟨encode v.1, least v.1⟩ ∧ state.2 = v.2) :
    Option.Rel (fun state v => state.1 = ⟨encode v.1, least v.1⟩ ∧ state.2 = v.2)
      (step state call) (spec v call) := by
  obtain ⟨s, answers⟩ := state
  obtain ⟨l, answers'⟩ := v
  obtain ⟨hs, ha⟩ : s = ⟨encode l, least l⟩ ∧ answers = answers' := hState
  subst hs ha
  cases call with
  | push x => exact .some ⟨push_encode l x, rfl⟩
  | pop =>
      cases l with
      | nil => exact .none
      | cons x l =>
          rw [step, pop_encode]
          exact .some ⟨rfl, rfl⟩
  | top =>
      rw [step, spec, top, head?_encode]
      cases l with
      | nil => exact .none
      | cons x l => exact .some ⟨rfl, rfl⟩
  | getMin => exact .some ⟨rfl, rfl⟩

/-- Every run of calls is defined if and only if no call needs an element that is not there, and
gives the newest element and the least one as its answers. -/
theorem run_answers (calls : List Call) :
    (run step (construct, []) calls).map Prod.snd = (run spec ([], []) calls).map Prod.snd :=
  map_eq_of_rel (run_rel step_rel calls (v := ([], [])) ⟨rfl, rfl⟩) fun _ _ hState => hState.2

end MinStack

namespace Pattern132

/-- The inner loop: the stack and `a3` after every smaller number was popped. -/
def popSmaller (next : Int) : (mid : List Int) → (a3 : Int) → List Int × Int
  | [], a3 => ([], a3)
  | top :: mid, a3 =>
      if top < next then popSmaller next mid (max a3 top) else (top :: mid, a3)

/-- The condition in front of the inner loop, which reads the top of the stack. -/
def found (mid : List Int) (a3 next : Int) : Option Bool :=
  if next < a3 then mid.head?.map fun top => decide (next < top) else some false

def search : (mid : List Int) → (a3 : Int) → (rest : List Int) → Option Bool
  | _, _, [] => some false
  | mid, a3, next :: rest => do
      let stop ← found mid a3 next
      if stop then some true
      else
        let (mid, a3) := popSmaller next mid a3
        search (next :: mid) a3 rest

def INT_MIN : Int := -2 ^ 31

def find132pattern (nums : List Int) : Option Bool := search [] INT_MIN nums.reverse

/-- Three numbers in this order, the last one between the other two. -/
def Has132 (nums : List Int) : Prop := ∃ x y z, [x, y, z].Sublist nums ∧ x < z ∧ z < y

/-- What is known of the numbers that were read. -/
structure Searched (nums mid : List Int) (a3 : Int) : Prop where
  none : ¬Has132 nums
  third : a3 = INT_MIN ∨ ∃ y, [y, a3].Sublist nums ∧ a3 < y
  thirds : ∀ y z, [y, z].Sublist nums → z < y → z ≤ a3
  sorted : mid.Pairwise (· ≤ ·)
  above : ∀ m ∈ mid, a3 ≤ m
  subset : ∀ m ∈ mid, m ∈ nums
  covered : ∀ z ∈ nums, z ∈ mid ∨ z ≤ a3
  nonempty : nums ≠ [] → mid ≠ []

variable {nums mid : List Int} {a3 next : Int}

theorem popSmaller_spec (next : Int) (mid : List Int) (a3 : Int) :
    ∃ popped, mid = popped ++ (popSmaller next mid a3).1 ∧ (∀ m ∈ popped, m < next) ∧
      (∀ m ∈ (popSmaller next mid a3).1.head?, next ≤ m) ∧ a3 ≤ (popSmaller next mid a3).2 ∧
      (∀ m ∈ popped, m ≤ (popSmaller next mid a3).2) ∧
      ((popSmaller next mid a3).2 = a3 ∨ (popSmaller next mid a3).2 ∈ popped) := by
  induction mid generalizing a3 with
  | nil => exact ⟨[], rfl, by simp, by simp [popSmaller], le_refl _, by simp, Or.inl rfl⟩
  | cons top mid ih =>
      rw [popSmaller]
      split_ifs with hTop
      · obtain ⟨popped, hMid, hLess, hHead, hLe, hAll, hIs⟩ := ih (max a3 top)
        refine ⟨top :: popped, by rw [List.cons_append, ← hMid], ?_, hHead,
          le_trans (le_max_left _ _) hLe, ?_, ?_⟩
        · exact List.forall_mem_cons.mpr ⟨hTop, hLess⟩
        · exact List.forall_mem_cons.mpr ⟨le_trans (le_max_right _ _) hLe, hAll⟩
        · rcases hIs with hIs | hIs
          · rw [hIs, List.mem_cons]
            rcases max_choice a3 top with hMax | hMax
            · exact Or.inl hMax
            · exact Or.inr (Or.inl hMax)
          · exact Or.inr (List.mem_cons_of_mem _ hIs)
      · refine ⟨[], rfl, by simp, ?_, le_refl _, by simp, Or.inl rfl⟩
        simpa using hTop

theorem searched_nil : Searched [] [] INT_MIN where
  none := by
    rintro ⟨x, y, z, hSub, -⟩
    cases hSub
  third := Or.inl rfl
  thirds y z hSub := nomatch hSub
  sorted := List.Pairwise.nil
  above m hm := nomatch hm
  subset m hm := nomatch hm
  covered z hz := nomatch hz
  nonempty h := absurd rfl h

/-- A number below `a3` is the first one of a pattern. -/
theorem Searched.found_of_lt (h : Searched nums mid a3) (hMin : INT_MIN ≤ next)
    (hLess : next < a3) : found mid a3 next = some true ∧ Has132 (next :: nums) := by
  obtain ⟨y, hSub, hy⟩ := h.third.resolve_left (by omega)
  have hNums : nums ≠ [] := by
    rintro rfl
    cases hSub
  obtain ⟨top, rest, rfl⟩ := List.exists_cons_of_ne_nil (h.nonempty hNums)
  have hTop := h.above top List.mem_cons_self
  refine ⟨?_, next, y, a3, hSub.cons_cons next, hLess, hy⟩
  rw [found, if_pos hLess, List.head?_cons, Option.map_some, decide_eq_true (by omega)]

/-- Otherwise the search goes on. -/
theorem Searched.push (h : Searched nums mid a3) (hLess : ¬next < a3) :
    Searched (next :: nums) (next :: (popSmaller next mid a3).1) (popSmaller next mid a3).2 := by
  obtain ⟨popped, hMid, hPopped, hHead, hLe, hAll, hIs⟩ := popSmaller_spec next mid a3
  generalize popSmaller next mid a3 = left at *
  obtain ⟨mid', a3'⟩ := left
  dsimp only at *
  subst hMid
  obtain ⟨hSorted, hSorted', hAcross⟩ := List.pairwise_append.mp h.sorted
  have hKept : ∀ m ∈ mid', next ≤ m := by
    intro m hm
    cases mid' with
    | nil => cases hm
    | cons top mid' =>
        have hTop := hHead top rfl
        rcases List.mem_cons.mp hm with rfl | hm
        · exact hTop
        · exact le_trans hTop ((List.pairwise_cons.mp hSorted').1 m hm)
  constructor
  · rintro ⟨x, y, z, hSub, hx, hz⟩
    rcases List.sublist_cons_iff.mp hSub with hSub | ⟨r, hr, hSub⟩
    · exact h.none ⟨x, y, z, hSub, hx, hz⟩
    · obtain ⟨rfl, rfl⟩ := List.cons.inj hr
      have := h.thirds y z hSub hz
      omega
  · rcases hIs with rfl | hIs
    · rcases h.third with hMin | ⟨y, hSub, hy⟩
      · exact Or.inl hMin
      · exact Or.inr ⟨y, hSub.cons _, hy⟩
    · refine Or.inr ⟨next, List.Sublist.cons_cons next ?_, hPopped _ hIs⟩
      exact List.singleton_sublist.mpr (h.subset _ (List.mem_append_left _ hIs))
  · intro y z hSub hz
    rcases List.sublist_cons_iff.mp hSub with hSub | ⟨r, hr, hSub⟩
    · exact le_trans (h.thirds y z hSub hz) hLe
    · obtain ⟨rfl, rfl⟩ := List.cons.inj hr
      rcases h.covered z (List.singleton_sublist.mp hSub) with hMem | hOld
      · rcases List.mem_append.mp hMem with hMem | hMem
        · exact hAll z hMem
        · have := hKept z hMem
          omega
      · omega
  · exact List.pairwise_cons.mpr ⟨hKept, hSorted'⟩
  · rw [List.forall_mem_cons]
    constructor
    · rcases hIs with rfl | hIs
      · omega
      · exact (hPopped _ hIs).le
    · intro m hm
      rcases hIs with rfl | hIs
      · exact h.above m (List.mem_append_right _ hm)
      · exact hAcross _ hIs m hm
  · rw [List.forall_mem_cons]
    exact ⟨List.mem_cons_self, fun m hm =>
      List.mem_cons_of_mem _ (h.subset m (List.mem_append_right _ hm))⟩
  · rw [List.forall_mem_cons]
    refine ⟨Or.inl List.mem_cons_self, fun z hz => ?_⟩
    rcases h.covered z hz with hMem | hOld
    · rcases List.mem_append.mp hMem with hMem | hMem
      · exact Or.inr (hAll z hMem)
      · exact Or.inl (List.mem_cons_of_mem _ hMem)
    · exact Or.inr (le_trans hOld hLe)
  · exact fun _ => List.cons_ne_nil _ _

theorem search_eq (h : Searched nums mid a3) (rest : List Int)
    (hMin : ∀ x ∈ rest, INT_MIN ≤ x) :
    ∃ b, search mid a3 rest = some b ∧ (b = true ↔ Has132 (rest.reverse ++ nums)) := by
  induction rest generalizing nums mid a3 with
  | nil => exact ⟨false, rfl, iff_of_false Bool.false_ne_true h.none⟩
  | cons next rest ih =>
      obtain ⟨hNext, hRest⟩ := List.forall_mem_cons.mp hMin
      rw [search, List.reverse_cons, List.append_assoc, List.singleton_append]
      by_cases hLess : next < a3
      · obtain ⟨hFound, x, y, z, hSub, hx, hz⟩ := h.found_of_lt hNext hLess
        refine ⟨true, by rw [hFound]; rfl, iff_of_true rfl ⟨x, y, z, ?_, hx, hz⟩⟩
        exact hSub.trans (List.sublist_append_right _ _)
      · rw [found, if_neg hLess]
        exact ih (h.push hLess) hRest

/-- The search reads the top of the stack only where there is one, and tells whether there is a
pattern. -/
theorem find132pattern_iff (nums : List Int) (hMin : ∀ x ∈ nums, INT_MIN ≤ x) :
    ∃ b, find132pattern nums = some b ∧ (b = true ↔ Has132 nums) := by
  have hSearch := search_eq searched_nil nums.reverse fun x hx =>
    hMin x (List.mem_reverse.mp hx)
  rwa [List.reverse_reverse, List.append_nil] at hSearch

theorem find132pattern_iff_five : ∃ b, find132pattern [3, 5, 0, 3, 4] = some b ∧
    (b = true ↔ Has132 [3, 5, 0, 3, 4]) :=
  find132pattern_iff [3, 5, 0, 3, 4] (by decide)

end Pattern132
end CppPerf.Sequences
