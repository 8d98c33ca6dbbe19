import CppPerf.Text.Parsing
import CppPerf.Tries.Trie
import Mathlib.Algebra.BigOperators.Fin
import Mathlib.Algebra.Order.BigOperators.Group.Finset
import Mathlib.Algebra.Order.Group.Abs
import Mathlib.Algebra.Order.Ring.Int

/-! `MapSum` of `trie.cpp`: the sum of the values whose keys have a prefix. -/
namespace CppPerf.Tries.MapSum

open Text PrefixTree

def insert (key : List Char) (val : Int) (root : Node Int) : Option (Node Int) :=
  Node.put key val key root

def plus (total s : Int) : Option Int := if fitsInt (total + s) then some (total + s) else none

mutual

/-- The sum below a node, child by child. -/
def sumFrom : Node Int → Option Int
  | .mk val child => (List.finRange 26).foldlM (fun total k => addChild total (child k)) val

def addChild (total : Int) : Option (Node Int) → Option Int
  | none => some total
  | some c => (sumFrom c).bind (plus total)

end

def sum (p : List Char) (root : Node Int) : Option Int := do
  match ← Node.find_prefix p root with
  | some found => sumFrom found
  | none => return 0

/-! Keys with their values, each key once. -/

abbrev Entries := List (List Char × Int)

/-- The key gets the value, whether it had one before or not. -/
def Entries.set (entries : Entries) (key : List Char) (val : Int) : Entries :=
  (key, val) :: entries.filter fun e => e.1 ≠ key

def Entries.value (entries : Entries) (key : List Char) : Int := (entries.lookup key).getD 0

/-- The sum of what `g` makes of the values whose keys have the prefix. -/
def Entries.total (entries : Entries) (g : Int → Int) (p : List Char) : Int :=
  ((entries.filter fun e => p.isPrefixOf e.1).map fun e => g e.2).sum

variable {entries : Entries} {g : Int → Int} {p w key : List Char} {val : Int}

theorem total_cons (e : List Char × Int) (entries : Entries) (g : Int → Int) (p : List Char) :
    Entries.total (e :: entries) g p =
      (if p <+: e.1 then g e.2 else 0) + Entries.total entries g p := by
  rw [Entries.total, Entries.total, List.filter_cons]
  simp only [List.isPrefixOf_iff_prefix]
  split_ifs
  · rw [List.map_cons, List.sum_cons]
  · rw [Int.zero_add]

theorem value_cons (e : List Char × Int) (entries : Entries) (key : List Char) :
    Entries.value (e :: entries) key = if e.1 = key then e.2 else entries.value key := by
  rw [Entries.value, Entries.value, List.lookup_cons]
  split_ifs with hEq
  · rw [hEq, beq_self_eq_true]
    rfl
  · rw [beq_eq_false_iff_ne.mpr (Ne.symm hEq)]

theorem filter_eq_self_of_notMem (h : key ∉ entries.map Prod.fst) :
    entries.filter (fun e => e.1 ≠ key) = entries := by
  rw [List.filter_eq_self]
  intro e he
  have hNe : e.1 ≠ key := fun hSame => h (List.mem_map.mpr ⟨e, he, hSame⟩)
  simpa using hNe

/-- Without a key the sum is smaller by what the key had. -/
theorem total_filter (hg : g 0 = 0) (hNodup : (entries.map Prod.fst).Nodup) (key p : List Char) :
    Entries.total (entries.filter fun e => e.1 ≠ key) g p =
      entries.total g p - if p <+: key then g (entries.value key) else 0 := by
  induction entries with
  | nil => simp [Entries.total, Entries.value, hg]
  | cons e entries ih =>
      rw [List.map_cons, List.nodup_cons] at hNodup
      rw [total_cons, value_cons]
      by_cases hEq : e.1 = key
      · rw [List.filter_cons_of_neg (by simpa using hEq), if_pos hEq, hEq,
          filter_eq_self_of_notMem (hEq ▸ hNodup.1)]
        omega
      · rw [List.filter_cons_of_pos (by simpa using hEq), total_cons, ih hNodup.2, if_neg hEq]
        omega

theorem total_set (hg : g 0 = 0) (hNodup : (entries.map Prod.fst).Nodup) (key : List Char)
    (val : Int) (p : List Char) :
    (entries.set key val).total g p =
      entries.total g p + if p <+: key then g val - g (entries.value key) else 0 := by
  rw [Entries.set, total_cons, total_filter hg hNodup]
  split_ifs
  · simp only
    omega
  · omega

theorem value_filter (entries : Entries) (hNe : w ≠ key) :
    Entries.value (entries.filter fun e => e.1 ≠ key) w = entries.value w := by
  induction entries with
  | nil => rfl
  | cons e entries ih =>
      rw [value_cons]
      by_cases hEq : e.1 = key
      · rw [List.filter_cons_of_neg (by simpa using hEq), ih, if_neg (hEq ▸ hNe.symm)]
      · rw [List.filter_cons_of_pos (by simpa using hEq), value_cons, ih]

theorem value_set (key : List Char) (val : Int) (w : List Char) :
    (entries.set key val).value w = if w = key then val else entries.value w := by
  rw [Entries.set, value_cons]
  by_cases hEq : w = key
  · rw [if_pos hEq, if_pos hEq.symm]
  · rw [if_neg hEq, if_neg (Ne.symm hEq), value_filter entries hEq]

theorem nodup_set (hNodup : (entries.map Prod.fst).Nodup) (key : List Char) (val : Int) :
    ((entries.set key val).map Prod.fst).Nodup := by
  rw [Entries.set, List.map_cons, List.nodup_cons]
  refine ⟨fun hMem => ?_, hNodup.sublist (List.filter_sublist.map _)⟩
  obtain ⟨e, he, hEq⟩ := List.mem_map.mp hMem
  simpa [hEq] using (List.mem_filter.mp he).2

/-- The tree has the values at the ends of the keys, and nothing but zeros elsewhere. -/
structure Holds (root : Node Int) (entries : Entries) : Prop where
  nodup : (entries.map Prod.fst).Nodup
  subtotal : ∀ g : Int → Int, g 0 = 0 → ∀ p, (∀ c ∈ p, IsLetter c) →
    root.subtotal g (p.map Tries.key) = entries.total g p
  label : ∀ w, (∀ c ∈ w, IsLetter c) → (root.label (w.map Tries.key)).getD 0 = entries.value w

variable {root : Node Int}

theorem insert_eq (hKey : ∀ c ∈ key, IsLetter c) (val : Int) (root : Node Int) :
    insert key val root = some (root.modify 0 (fun _ => val) (key.map Tries.key)) :=
  Node.put_eq key val hKey root

theorem Holds.insert (h : Holds root entries) (hKey : ∀ c ∈ key, IsLetter c) (val : Int) :
    ∃ root', insert key val root = some root' ∧ Holds root' (entries.set key val) := by
  refine ⟨_, insert_eq hKey val root, nodup_set h.nodup key val, ?_, ?_⟩
  · intro g hg p hp
    rw [total_set hg h.nodup, PrefixTree.Node.subtotal_modify g _ hg, h.subtotal g hg p hp,
      h.label key hKey]
    simp only [ map_key_prefix hp hKey]
  · intro w hw
    rw [value_set, PrefixTree.Node.label_modify]
    simp only [map_key_inj hw hKey]
    split_ifs
    · rfl
    · rw [Option.getD_some]
      exact h.label w hw
    · exact h.label w hw

theorem holds_leaf : Holds (.leaf 0) [] where
  nodup := List.nodup_nil
  subtotal g hg p hp := by
    cases p with
    | nil => exact (PrefixTree.Node.sumBy_leaf g 0).trans hg
    | cons c p => rfl
  label w hw := by
    cases w with
    | nil => rfl
    | cons c w => rfl

/-! No sum overflows on the way if the absolute values do not. -/

theorem foldlM_plus {κ : Type} {add : Int → κ → Option Int} {s a : κ → Int} {bound : Int}
    (hAdd : ∀ k total, |total| + a k ≤ bound → add total k = some (total + s k))
    (hAbs : ∀ k, |s k| ≤ a k) (ks : List κ) (val : Int)
    (hBound : |val| + (ks.map a).sum ≤ bound) :
    ks.foldlM add val = some (val + (ks.map s).sum) := by
  induction ks generalizing val with
  | nil => simp
  | cons k ks ih =>
      rw [List.map_cons, List.sum_cons] at hBound
      have hRest : 0 ≤ (ks.map a).sum := by
        refine List.sum_nonneg ?_
        simp only [List.forall_mem_map]
        exact fun k _ => (abs_nonneg _).trans (hAbs k)
      have hStep := abs_add_le val (s k)
      have hk := hAbs k
      rw [List.foldlM_cons, hAdd k val (by omega), Option.bind_eq_bind, Option.bind_some,
        ih (val + s k) (by omega), List.map_cons, List.sum_cons, Int.add_assoc]

/-- The sum of the absolute values below a node. -/
def weight (n : Node Int) : Int := n.sumBy fun x => |x|

mutual

theorem abs_sumBy_le : ∀ n : Node Int, |n.sumBy id| ≤ weight n
  | .mk val child => by
      rw [weight, PrefixTree.Node.sumBy, PrefixTree.Node.sumBy]
      refine (abs_add_le _ _).trans (add_le_add le_rfl ?_)
      refine (Finset.abs_sum_le_sum_abs _ _).trans (Finset.sum_le_sum fun k _ => ?_)
      exact abs_sumByChild_le (child k)

theorem abs_sumByChild_le : ∀ o : Option (Node Int),
    |PrefixTree.Node.sumByChild id o| ≤ PrefixTree.Node.sumByChild (fun x : Int => |x|) o
  | none => le_of_eq abs_zero
  | some n => abs_sumBy_le n

end

mutual

theorem sumFrom_eq : ∀ n : Node Int, weight n < 2 ^ 31 → sumFrom n = some (n.sumBy id)
  | .mk val child, hWeight => by
      rw [weight, PrefixTree.Node.sumBy, Fin.sum_univ_def] at hWeight
      rw [sumFrom, PrefixTree.Node.sumBy, Fin.sum_univ_def]
      refine foldlM_plus (fun k total hTotal => ?_) (fun k => abs_sumByChild_le (child k)) _ val
        (Int.le_sub_one_of_lt hWeight)
      exact addChild_eq (child k) total (by omega)

theorem addChild_eq : ∀ (o : Option (Node Int)) (total : Int),
    |total| + PrefixTree.Node.sumByChild (fun x : Int => |x|) o < 2 ^ 31 →
      addChild total o = some (total + PrefixTree.Node.sumByChild id o)
  | none, total, _ => by rw [addChild, PrefixTree.Node.sumByChild, Int.add_zero]
  | some n, total, hTotal => by
      rw [PrefixTree.Node.sumByChild] at hTotal ⊢
      have hWeight : weight n < 2 ^ 31 := by
        have := abs_nonneg total
        rw [weight]
        omega
      have hSum := abs_sumBy_le n
      have hFits : fitsInt (total + n.sumBy id) = true := by
        rw [weight] at hSum
        rw [abs_le] at hSum
        have hLow := neg_abs_le total
        have hHigh := le_abs_self total
        simp only [fitsInt, Bool.and_eq_true, decide_eq_true_eq]
        omega
      rw [addChild, sumFrom_eq n hWeight, Option.bind_some, plus, if_pos hFits]

end

/-- `sum` adds the values whose keys have the prefix, if their absolute values are together an
`int`. -/
theorem Holds.sum_eq (h : Holds root entries) (hp : ∀ c ∈ p, IsLetter c)
    (hBound : entries.total (fun x => |x|) p < 2 ^ 31) :
    sum p root = some (entries.total id p) := by
  have hWeight := h.subtotal (fun x => |x|) abs_zero p hp
  have hSum := h.subtotal id rfl p hp
  rw [sum, Node.find_prefix_eq hp, Option.bind_eq_bind, Option.bind_some]
  rw [PrefixTree.Node.subtotal] at hWeight hSum
  cases hFound : root.descend (p.map Tries.key) with
  | none =>
      rw [hFound] at hSum
      rw [← hSum]
      rfl
  | some n =>
      rw [hFound, PrefixTree.Node.sumByChild] at hWeight hSum
      rw [← hSum]
      exact sumFrom_eq n (hWeight.trans_lt hBound)

/-- What the keys were given last. -/
def latest (pairs : List (List Char × Int)) : Entries :=
  pairs.foldl (fun entries e => entries.set e.1 e.2) []

theorem foldlM_insert (pairs : List (List Char × Int)) (h : Holds root entries)
    (hKeys : ∀ e ∈ pairs, ∀ c ∈ e.1, IsLetter c) :
    ∃ root', pairs.foldlM (fun root e => insert e.1 e.2 root) root = some root' ∧
      Holds root' (pairs.foldl (fun entries e => entries.set e.1 e.2) entries) := by
  induction pairs generalizing root entries with
  | nil => exact ⟨root, rfl, h⟩
  | cons e pairs ih =>
      obtain ⟨hFirst, hRest⟩ := List.forall_mem_cons.mp hKeys
      obtain ⟨next, hInsert, hNext⟩ := h.insert hFirst e.2
      obtain ⟨root', hRun, hHolds⟩ := ih hNext hRest
      exact ⟨root', by rw [List.foldlM_cons, hInsert, Option.bind_eq_bind, Option.bind_some, hRun],
        hHolds⟩

/-- After any insertions `sum` gives the sum of the latest values of the keys with a prefix. -/
theorem insert_sum (pairs : List (List Char × Int)) (hKeys : ∀ e ∈ pairs, ∀ c ∈ e.1, IsLetter c) :
    ∃ root, pairs.foldlM (fun root e => insert e.1 e.2 root) (.leaf 0) = some root ∧
      ∀ p, (∀ c ∈ p, IsLetter c) → (latest pairs).total (fun x => |x|) p < 2 ^ 31 →
        sum p root = some ((latest pairs).total id p) := by
  obtain ⟨root, hRun, hHolds⟩ := foldlM_insert pairs holds_leaf hKeys
  exact ⟨root, hRun, fun p hp hBound => hHolds.sum_eq hp hBound⟩

/-- A value is replaced, and one key begins another. -/
def threeKeys : List (List Char × Int) :=
  [(['a', 'p'], 3), (['a'], 2), (['b'], 9), (['a', 'p'], -5)]

theorem insert_sum_three : ∃ root,
    threeKeys.foldlM (fun root e => insert e.1 e.2 root) (.leaf 0) = some root ∧
      sum ['a'] root = some (-3) ∧ sum ['b', 'a'] root = some 0 := by
  obtain ⟨root, hRun, hSum⟩ := insert_sum threeKeys (by simp [threeKeys, IsLetter])
  refine ⟨root, hRun, ?_, ?_⟩
  · exact hSum ['a'] (by simp [IsLetter]) (by decide)
  · exact hSum ['b', 'a'] (by simp [IsLetter]) (by decide)

end CppPerf.Tries.MapSum
