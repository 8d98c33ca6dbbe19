import CppPerf.Semantics.PrefixTree
import Mathlib.Algebra.Ring.Nat
import Mathlib.Data.Nat.Bitwise

/-! `BinaryTrie` of `trie.h`, whose words are the binary digits of numbers from the
highest. The digit that a node repeats as its value is never read, so nodes carry
no value. -/
namespace CppPerf.Tries

open PrefixTree

structure BinaryTrie where
  root : PrefixTree.Node (Fin 2) Unit
  binary : List (Fin 2)

namespace BinaryTrie

abbrev Node := PrefixTree.Node (Fin 2) Unit

/-- `num % 2` -/
def digit (num : Nat) : Fin 2 := Fin.ofNat 2 num

/-- `1 - d` -/
def opposite (d : Fin 2) : Fin 2 := 1 - d

/-- The binary digits are written from the last. A number with more of them writes
before the first, which fails. The first argument is `index + 1`. -/
def fillBinary : Nat → Nat → List (Fin 2) → Option (List (Fin 2))
  | 0, num, binary => if num > 0 then none else some binary
  | index + 1, num, binary =>
      if num > 0 then fillBinary index (num / 2) (binary.set index (digit num))
      else some binary

def num_to_binary (num : Nat) (t : BinaryTrie) : Option BinaryTrie := do
  let binary := List.replicate t.binary.length 0
  let binary ← fillBinary binary.length num binary
  return { t with binary := binary }

def Node.put : List (Fin 2) → Node → Node
  | [], node => node
  | digit :: rest, node =>
      node.setChild digit (Node.put rest ((node.child digit).getD (.leaf ())))

/-- The walk fails at a null child and when the value overflows. -/
def Node.find_xor_max : List (Fin 2) → Node → (value : Nat) → Option Nat
  | [], _, value => some value
  | digit :: rest, node, value => do
      let d := opposite digit
      let (d, child) ← match node.child d with
        | some child => some (d, child)
        | none => (node.child (opposite d)).map fun child => (opposite d, child)
      let value := value * 2 + d.val
      if value < 2 ^ 31 then Node.find_xor_max rest child value else none

def init (bits : Nat) : BinaryTrie := ⟨.leaf (), List.replicate bits 0⟩

def add (num : Nat) (t : BinaryTrie) : Option BinaryTrie := do
  let t ← t.num_to_binary num
  return { t with root := Node.put t.binary t.root }

/-- The exclusive or is unsigned, and then taken as a signed number. -/
def find_xor_max (num : Nat) (t : BinaryTrie) : Option (Int × BinaryTrie) := do
  let t ← t.num_to_binary num
  let found ← Node.find_xor_max t.binary t.root 0
  return ((BitVec.ofNat 32 (num ^^^ found)).toInt, t)

end BinaryTrie
end CppPerf.Tries

/-! The walk to the opposite digits finds the largest exclusive or. -/
namespace CppPerf.Tries.BinaryTrie

open PrefixTree

/-- The lowest `k` binary digits of a number, the highest of them first. -/
def digits : Nat → Nat → List (Fin 2)
  | 0, _ => []
  | k + 1, num => digit (num / 2 ^ k) :: digits k num

theorem digits_succ_low (k num : Nat) :
    digits (k + 1) num = digits k (num / 2) ++ [digit num] := by
  induction k with
  | zero => rw [digits, digits, digits, Nat.pow_zero, Nat.div_one, List.nil_append]
  | succ k ih =>
      rw [digits, ih, digits, Nat.div_div_eq_div_mul, ← Nat.pow_succ', List.cons_append]

theorem digits_zero (k : Nat) : digits k 0 = List.replicate k 0 := by
  induction k with
  | zero => rfl
  | succ k ih => rw [digits, ih, Nat.zero_div, List.replicate_succ]; rfl

/-- The digits are written before those that are there. -/
theorem fillBinary_eq {k num : Nat} (hNum : num < 2 ^ k) (done : List (Fin 2)) :
    fillBinary k num (List.replicate k 0 ++ done) = some (digits k num ++ done) := by
  induction k generalizing num done with
  | zero => rw [Nat.lt_one_iff.mp hNum]; rfl
  | succ k ih =>
      rw [fillBinary]
      split_ifs with hPos
      · have hSet : (List.replicate (k + 1) 0 ++ done).set k (digit num) =
            List.replicate k 0 ++ digit num :: done := by
          rw [List.replicate_succ', List.append_assoc, List.set_append_right _ _ (by simp)]
          simp
        rw [hSet, ih (by rw [Nat.pow_succ] at hNum; omega), digits_succ_low, List.append_assoc]
        rfl
      · rw [Nat.eq_zero_of_not_pos hPos, digits_zero]

theorem num_to_binary_eq (t : BinaryTrie) {num : Nat} (hNum : num < 2 ^ t.binary.length) :
    t.num_to_binary num = some { t with binary := digits t.binary.length num } := by
  have hFill := fillBinary_eq hNum []
  rw [List.append_nil, List.append_nil] at hFill
  rw [num_to_binary, List.length_replicate, hFill]
  rfl

@[simp] theorem length_digits (k num : Nat) : (digits k num).length = k := by
  induction k with
  | zero => rfl
  | succ k ih => rw [digits, List.length_cons, ih]

theorem Node.put_eq (w : List (Fin 2)) (node : Node) : Node.put w node = node.modify () id w := by
  induction w generalizing node with
  | nil => cases node; rfl
  | cons digit w ih => rw [Node.put, PrefixTree.Node.modify, ih]

theorem foldlM_add {bits : Nat} {numbers : List Nat} (hNumbers : ∀ s ∈ numbers, s < 2 ^ bits)
    {t : BinaryTrie} (hLength : t.binary.length = bits) :
    ∃ t', numbers.foldlM (fun t num => t.add num) t = some t' ∧ t'.binary.length = bits ∧
      t'.root = (numbers.map (digits bits)).foldl (fun n w => n.modify () id w) t.root := by
  induction numbers generalizing t with
  | nil => exact ⟨t, rfl, hLength, rfl⟩
  | cons num numbers ih =>
      obtain ⟨hNum, hNumbers⟩ := List.forall_mem_cons.mp hNumbers
      obtain ⟨t', hRun, hLength', hRoot⟩ := ih hNumbers
        (t := ⟨Node.put (digits bits num) t.root, digits bits num⟩) (length_digits bits num)
      refine ⟨t', ?_, hLength', ?_⟩
      · rw [List.foldlM_cons, add, num_to_binary_eq t (hLength.symm ▸ hNum), hLength]
        exact hRun
      · rw [hRoot, Node.put_eq]
        rfl

/-- The nodes are the beginnings of the lowest digits of the numbers. -/
def Holds (k : Nat) (T : Set Nat) (node : Node) : Prop :=
  ∀ w, (node.label w).isSome ↔ ∃ s ∈ T, w <+: digits k s

section Descend

variable {k : Nat} {T : Set Nat} {node child : Node} {d : Fin 2}

theorem Holds.child_some (h : Holds (k + 1) T node) (hChild : node.child d = some child) :
    Holds k {s ∈ T | digit (s / 2 ^ k) = d} child := by
  intro w
  have hNode := h (d :: w)
  rw [PrefixTree.Node.label_cons, hChild, Option.bind_some] at hNode
  rw [hNode]
  refine exists_congr fun s => ?_
  rw [digits, List.cons_prefix_cons, Set.mem_ofPred_eq, and_assoc, eq_comm]

theorem Holds.child_none (h : Holds (k + 1) T node) (hChild : node.child d = none) {s : Nat}
    (hs : s ∈ T) : digit (s / 2 ^ k) ≠ d := by
  rintro rfl
  have hNode := (h [digit (s / 2 ^ k)]).mpr
    ⟨s, hs, List.cons_prefix_cons.mpr ⟨rfl, List.nil_prefix⟩⟩
  rw [PrefixTree.Node.label_cons, hChild] at hNode
  cases hNode

theorem Holds.nonempty (h : Holds k T node) : T.Nonempty := by
  obtain ⟨s, hs, -⟩ := (h []).mp rfl
  exact ⟨s, hs⟩

end Descend

theorem opposite_mod (a : Nat) : (opposite (digit a)).val = 1 - a % 2 := by
  rcases Nat.mod_two_eq_zero_or_one a with h | h
  · have hDigit : digit a = 0 := Fin.ext h
    rw [hDigit, h]; rfl
  · have hDigit : digit a = 1 := Fin.ext h
    rw [hDigit, h]; rfl

theorem opposite_opposite (d : Fin 2) : opposite (opposite d) = d := by revert d; decide

/-- The lowest digits of two exclusive ors compare by the digit above, then by the
rest of them. -/
theorem xor_mod_le {x s r k : Nat}
    (h : (x ^^^ s) / 2 ^ k % 2 < (x ^^^ r) / 2 ^ k % 2 ∨
      (x ^^^ s) / 2 ^ k % 2 = (x ^^^ r) / 2 ^ k % 2 ∧ (x ^^^ s) % 2 ^ k ≤ (x ^^^ r) % 2 ^ k) :
    (x ^^^ s) % 2 ^ (k + 1) ≤ (x ^^^ r) % 2 ^ (k + 1) := by
  rw [Nat.mod_pow_succ, Nat.mod_pow_succ]
  rcases h with hLt | ⟨hEq, hLe⟩
  · have hLow := Nat.mod_lt (x ^^^ s) (Nat.two_pow_pos k)
    have hHigh : 2 ^ k * ((x ^^^ s) / 2 ^ k % 2 + 1) ≤ 2 ^ k * ((x ^^^ r) / 2 ^ k % 2) :=
      Nat.mul_le_mul_left _ hLt
    rw [Nat.mul_succ] at hHigh
    omega
  · rw [hEq]
    omega

theorem xor_digit (x s k : Nat) :
    (x ^^^ s) / 2 ^ k % 2 = (x / 2 ^ k % 2 + s / 2 ^ k % 2) % 2 := by
  rw [Nat.xor_div_two_pow, Nat.xor_mod_two_eq, Nat.add_mod]

/-- The walk takes the opposite digit if some number has it. -/
theorem Holds.choose {k x : Nat} {T : Set Nat} {node : Node} (h : Holds (k + 1) T node) :
    ∃ d child, node.child d = some child ∧
      (∀ rest value, Node.find_xor_max (digit (x / 2 ^ k) :: rest) node value =
        if value * 2 + d.val < 2 ^ 31
        then Node.find_xor_max rest child (value * 2 + d.val) else none) ∧
      ∀ s ∈ T, digit (s / 2 ^ k) ≠ d →
        s / 2 ^ k % 2 = x / 2 ^ k % 2 ∧ d.val = 1 - x / 2 ^ k % 2 := by
  cases hChild : node.child (opposite (digit (x / 2 ^ k))) with
  | some child =>
      refine ⟨_, child, hChild, fun rest value => ?_, fun s _ hs => ⟨?_, opposite_mod _⟩⟩
      · rw [Node.find_xor_max, hChild]
        rfl
      · have hDigit := mt Fin.ext hs
        rw [opposite_mod] at hDigit
        have hVal : (digit (s / 2 ^ k)).val = s / 2 ^ k % 2 := rfl
        omega
  | none =>
      have hSame (s : Nat) (hs : s ∈ T) :
          digit (s / 2 ^ k) = opposite (opposite (digit (x / 2 ^ k))) := by
        have hOther := mt Fin.ext (h.child_none hChild hs)
        rw [opposite_mod] at hOther
        rw [opposite_opposite]
        have hVal : (digit (s / 2 ^ k)).val = s / 2 ^ k % 2 := rfl
        exact Fin.ext (show s / 2 ^ k % 2 = x / 2 ^ k % 2 by omega)
      cases hOther : node.child (opposite (opposite (digit (x / 2 ^ k)))) with
      | some child =>
          refine ⟨_, child, hOther, fun rest value => ?_, fun s hs hNe => absurd (hSame s hs) hNe⟩
          rw [Node.find_xor_max, hChild, hOther]
          rfl
      | none =>
          obtain ⟨s, hs⟩ := h.nonempty
          exact absurd (hSame s hs) (h.child_none hOther hs)

/-- The walk ends at the lowest digits of a number, and no number has a larger
exclusive or in these digits. -/
theorem Holds.find_xor_max {k x : Nat} {T : Set Nat} {node : Node} (h : Holds k T node)
    {value : Nat} (hValue : (value + 1) * 2 ^ k ≤ 2 ^ 31) :
    ∃ r ∈ T, Node.find_xor_max (digits k x) node value = some (value * 2 ^ k + r % 2 ^ k) ∧
      ∀ s ∈ T, (x ^^^ s) % 2 ^ k ≤ (x ^^^ r) % 2 ^ k := by
  induction k generalizing T node value with
  | zero =>
      obtain ⟨r, hr⟩ := h.nonempty
      refine ⟨r, hr, ?_, fun s _ => ?_⟩
      · rw [Nat.pow_zero, Nat.mul_one, Nat.mod_one]
        rfl
      · rw [Nat.pow_zero, Nat.mod_one, Nat.mod_one]
  | succ k ih =>
      obtain ⟨d, child, hChild, hWalk, hRest⟩ := h.choose (x := x)
      have hNext : (value * 2 + d.val + 1) * 2 ^ k ≤ 2 ^ 31 := by
        rw [Nat.pow_succ', ← Nat.mul_assoc] at hValue
        exact (Nat.mul_le_mul_right _ (by omega)).trans hValue
      have hSmall : value * 2 + d.val < 2 ^ 31 :=
        (Nat.le_mul_of_pos_right _ (Nat.two_pow_pos k)).trans hNext
      obtain ⟨r, ⟨hr, hDigit⟩, hRun, hMax⟩ := ih (h.child_some hChild) hNext
      have hVal : r / 2 ^ k % 2 = d.val := congrArg Fin.val hDigit
      refine ⟨r, hr, ?_, fun s hs => xor_mod_le ?_⟩
      · rw [digits, hWalk, if_pos hSmall, hRun, Nat.mod_pow_succ, hVal, Nat.pow_succ]
        refine congrArg some ?_
        rw [Nat.add_mul, Nat.mul_comm d.val, Nat.mul_assoc, Nat.mul_comm 2]
        omega
      · rw [xor_digit, xor_digit, hVal]
        by_cases hSame : digit (s / 2 ^ k) = d
        · have hSameVal : s / 2 ^ k % 2 = d.val := congrArg Fin.val hSame
          exact Or.inr ⟨by rw [hSameVal], hMax s ⟨hs, hSame⟩⟩
        · obtain ⟨hs2, hd⟩ := hRest s hs hSame
          omega

theorem toInt_of_lt {a : Nat} (h : a < 2 ^ 31) : (BitVec.ofNat 32 a).toInt = a := by
  have hVal : (BitVec.ofNat 32 a).toNat = a := by rw [BitVec.toNat_ofNat]; omega
  rw [BitVec.toInt_eq_toNat_of_lt (by omega), hVal]

/-- The query finds the largest exclusive or with a number that was added. -/
theorem find_xor_max_eq (bits : Nat) (hBits : bits ≤ 31) (numbers : List Nat)
    (hNonempty : numbers ≠ []) (hNumbers : ∀ s ∈ numbers, s < 2 ^ bits) (x : Nat)
    (hx : x < 2 ^ bits) :
    ∃ (t t' : BinaryTrie) (r : Nat), numbers.foldlM (fun t num => t.add num) (init bits) = some t ∧
      t.find_xor_max x = some ((r : Int), t') ∧
      (∃ s ∈ numbers, r = x ^^^ s) ∧ ∀ s ∈ numbers, x ^^^ s ≤ r := by
  obtain ⟨t, hRun, hLength, hRoot⟩ :=
    foldlM_add hNumbers (t := init bits) List.length_replicate
  have hHolds : Holds bits {s | s ∈ numbers} t.root := by
    intro w
    rw [hRoot, PrefixTree.Node.label_foldl_isSome, or_iff_left_of_imp]
    · simp only [List.mem_map, exists_exists_and_eq_and, Set.mem_ofPred_eq]
    · intro hLeaf
      cases w with
      | nil =>
          obtain ⟨s, hs⟩ := List.exists_mem_of_ne_nil numbers hNonempty
          exact ⟨_, List.mem_map_of_mem hs, List.nil_prefix⟩
      | cons d w => cases hLeaf
  have hPow : 2 ^ bits ≤ 2 ^ 31 := Nat.pow_le_pow_right (by decide) hBits
  have hStart : (0 + 1) * 2 ^ bits ≤ 2 ^ 31 := by rwa [Nat.zero_add, Nat.one_mul]
  obtain ⟨s, hs, hFind, hMax⟩ := hHolds.find_xor_max (x := x) hStart
  have hMod (s : Nat) (hs : s ∈ numbers) : (x ^^^ s) % 2 ^ bits = x ^^^ s :=
    Nat.mod_eq_of_lt (Nat.xor_lt_two_pow hx (hNumbers s hs))
  refine ⟨t, { t with binary := digits bits x }, x ^^^ s, hRun, ?_, ⟨s, hs, rfl⟩, fun u hu => ?_⟩
  · have hLt : x ^^^ s < 2 ^ 31 := (Nat.xor_lt_two_pow hx (hNumbers s hs)).trans_le hPow
    rw [Nat.zero_mul, Nat.zero_add, Nat.mod_eq_of_lt (hNumbers s hs)] at hFind
    rw [find_xor_max, num_to_binary_eq t (hLength.symm ▸ hx), hLength, Option.bind_eq_bind,
      Option.bind_some, hFind, Option.bind_eq_bind, Option.bind_some, toInt_of_lt hLt]
    rfl
  · have hLe := hMax u hu
    rwa [hMod u hu, hMod s hs] at hLe

/-- The largest exclusive or with 5 is that with 25. -/
theorem find_xor_max_eq_six :
    ∃ t t' : BinaryTrie, [3, 10, 5, 25, 2, 8].foldlM (fun t num => t.add num) (init 5) = some t ∧
      t.find_xor_max 5 = some (28, t') := by
  obtain ⟨t, t', r, hRun, hFind, ⟨s, hs, hr⟩, hMax⟩ := find_xor_max_eq 5 (by decide)
    [3, 10, 5, 25, 2, 8] (by decide) (by decide) 5 (by decide)
  have hLe : 5 ^^^ 25 ≤ r := hMax 25 (by decide)
  have hGe : ∀ s ∈ [3, 10, 5, 25, 2, 8], 5 ^^^ s ≤ 28 := by decide
  have hValue : r = 28 := by
    have hOther := hGe s hs
    have hXor : 5 ^^^ 25 = 28 := rfl
    omega
  exact ⟨t, t', hRun, by rw [hFind, hValue]; rfl⟩

end CppPerf.Tries.BinaryTrie
