import Mathlib.Data.List.Basic
import Mathlib.Tactic.Common

/-! Character buffers of a fixed size. A character is written only inside of one, and
a string ends before the first null. -/
namespace CharBuffer

def nul : Char := Char.ofNat 0

def write (i : Int) (c : Char) (buf : List Char) : Option (List Char) :=
  if 0 ≤ i ∧ i < buf.length then some (buf.set i.toNat c) else none

/-- Write characters one after the other. -/
def writeUp : List Char → Int → List Char → Option (List Char)
  | [], _, buf => some buf
  | c :: cs, i, buf => (write i c buf).bind (writeUp cs (i + 1))

/-- Write characters one before the other. -/
def writeDown : List Char → Int → List Char → Option (List Char)
  | [], _, buf => some buf
  | c :: cs, i, buf => (write i c buf).bind (writeDown cs (i - 1))

/-- The buffer with other characters from an index on. -/
def splice (a : Nat) (cs buf : List Char) : List Char :=
  buf.take a ++ cs ++ buf.drop (a + cs.length)

/-- Turn the characters from one index to another. -/
def reverse (first last : Nat) (buf : List Char) : List Char :=
  buf.take first ++ ((buf.drop first).take (last - first)).reverse ++ buf.drop last

/-- The string from an index on. -/
def stringAt (i : Nat) (buf : List Char) : Option (List Char) :=
  if nul ∈ buf.drop i then some ((buf.drop i).takeWhile (· ≠ nul)) else none

variable {buf cs ds : List Char} {c : Char} {i : Int} {a : Nat}

theorem splice_nil (a : Nat) (buf : List Char) : splice a [] buf = buf := by
  rw [splice, List.append_nil, List.length_nil, Nat.add_zero, List.take_append_drop]

theorem length_splice (h : a + cs.length ≤ buf.length) :
    (splice a cs buf).length = buf.length := by
  rw [splice, List.length_append, List.length_append, List.length_take, List.length_drop]
  omega

theorem splice_append_right (h : a ≤ buf.length) (cs ds : List Char) :
    splice (a + cs.length) ds (splice a cs buf) = splice a (cs ++ ds) buf := by
  have hFront : (buf.take a ++ cs).length = a + cs.length := by
    rw [List.length_append, List.length_take, Nat.min_eq_left h]
  rw [splice, splice, splice, List.take_left' hFront, ← hFront, List.drop_append, hFront,
    Nat.add_sub_cancel_left, List.drop_eq_nil_of_le (by omega), List.drop_drop,
    List.length_append, Nat.add_assoc]
  simp only [List.nil_append, List.append_assoc]

theorem splice_append_left (h : a + cs.length ≤ buf.length) (ds : List Char) :
    splice a cs (splice (a + cs.length) ds buf) = splice a (cs ++ ds) buf := by
  have hFront : (buf.take (a + cs.length)).length = a + cs.length := by
    rw [List.length_take, Nat.min_eq_left h]
  have hTake : (splice (a + cs.length) ds buf).take a = buf.take a := by
    rw [splice, List.append_assoc, List.take_append_of_le_length (by omega), List.take_take,
      Nat.min_eq_left (Nat.le_add_right _ _)]
  have hDrop : (splice (a + cs.length) ds buf).drop (a + cs.length) =
      ds ++ buf.drop (a + cs.length + ds.length) := by
    rw [splice, List.append_assoc, List.drop_left' hFront]
  rw [splice, hTake, hDrop, splice, List.length_append]
  simp only [List.append_assoc, Nat.add_assoc]

theorem write_of_neg (h : i < 0) (c : Char) (buf : List Char) : write i c buf = none :=
  if_neg fun hIn => by omega

theorem write_of_ge (h : buf.length ≤ i) (c : Char) : write i c buf = none :=
  if_neg fun hIn => by omega

theorem write_eq (h : a < buf.length) (c : Char) : write a c buf = some (splice a [c] buf) := by
  rw [write, if_pos ⟨Int.natCast_nonneg a, Int.ofNat_lt.mpr h⟩, Int.toNat_natCast, splice,
    List.set_eq_take_append_cons_drop, if_pos h]
  simp only [List.append_assoc, List.singleton_append, List.length_singleton]

theorem length_write {next : List Char} (h : write i c buf = some next) :
    next.length = buf.length := by
  rw [write] at h
  split_ifs at h
  rw [← Option.some.inj h, List.length_set]

theorem length_writeDown {next : List Char} (h : writeDown cs i buf = some next) :
    next.length = buf.length := by
  induction cs generalizing i buf with
  | nil => rw [← Option.some.inj h]
  | cons c cs ih =>
      rw [writeDown] at h
      obtain ⟨mid, hMid, hRest⟩ := Option.bind_eq_some_iff.mp h
      rw [ih hRest, length_write hMid]

theorem writeUp_singleton (c : Char) (i : Int) (buf : List Char) :
    writeUp [c] i buf = write i c buf :=
  Option.bind_fun_some _

theorem writeUp_append (cs ds : List Char) (i : Int) (buf : List Char) :
    writeUp (cs ++ ds) i buf = (writeUp cs i buf).bind (writeUp ds (i + cs.length)) := by
  induction cs generalizing i buf with
  | nil =>
      rw [List.nil_append, List.length_nil, Int.natCast_zero, Int.add_zero]
      rfl
  | cons c cs ih =>
      rw [List.cons_append, writeUp, writeUp, Option.bind_assoc]
      refine congrArg (Option.bind _) (funext fun next => ?_)
      rw [ih, List.length_cons, Int.natCast_add, Int.natCast_one, Int.add_assoc, Int.add_comm 1]

theorem writeDown_append (cs ds : List Char) (i : Int) (buf : List Char) :
    writeDown (cs ++ ds) i buf = (writeDown cs i buf).bind (writeDown ds (i - cs.length)) := by
  induction cs generalizing i buf with
  | nil =>
      rw [List.nil_append, List.length_nil, Int.natCast_zero, Int.sub_zero]
      rfl
  | cons c cs ih =>
      rw [List.cons_append, writeDown, writeDown, Option.bind_assoc]
      refine congrArg (Option.bind _) (funext fun next => ?_)
      rw [ih, List.length_cons, Int.natCast_add, Int.natCast_one, Int.sub_sub, Int.add_comm 1]

theorem writeUp_eq (h : a + cs.length ≤ buf.length) :
    writeUp cs a buf = some (splice a cs buf) := by
  induction cs generalizing a buf with
  | nil => rw [splice_nil]; rfl
  | cons c cs ih =>
      rw [List.length_cons] at h
      have hLength : (splice a [c] buf).length = buf.length :=
        length_splice (by rw [List.length_singleton]; omega)
      rw [writeUp, write_eq (by omega), Option.bind_some, ← Int.natCast_one, ← Int.natCast_add,
        ih (by rw [hLength]; omega)]
      exact congrArg some (splice_append_right (by omega) [c] cs)

/-- The last character that is written comes first. -/
theorem writeDown_eq (h : a + cs.length ≤ buf.length) :
    writeDown cs (a + cs.length - 1) buf = some (splice a cs.reverse buf) := by
  induction cs generalizing buf with
  | nil => rw [List.reverse_nil, splice_nil]; rfl
  | cons c cs ih =>
      rw [List.length_cons] at h
      have hIndex : (a : Int) + (c :: cs).length - 1 = ((a + cs.length : Nat) : Int) := by
        rw [List.length_cons]
        omega
      have hLength : (splice (a + cs.length) [c] buf).length = buf.length :=
        length_splice (by rw [List.length_singleton]; omega)
      rw [writeDown, hIndex, write_eq (by omega), Option.bind_some, Int.natCast_add,
        ih (by rw [hLength]; omega), ← @List.length_reverse _ cs]
      rw [splice_append_left (by rw [List.length_reverse]; omega), List.reverse_cons]

theorem writeDown_underflow (hStart : -1 ≤ i) (hi : i + 1 < cs.length) (buf : List Char) :
    writeDown cs i buf = none := by
  induction cs generalizing i buf with
  | nil =>
      rw [List.length_nil] at hi
      omega
  | cons c cs ih =>
      rw [List.length_cons] at hi
      rw [writeDown]
      by_cases hNeg : i < 0
      · rw [write_of_neg hNeg]
        rfl
      · cases hWrite : write i c buf with
        | none => rfl
        | some next => exact ih (by omega) (by omega) next

theorem reverse_splice (h : a ≤ buf.length) (cs : List Char) :
    reverse a (a + cs.length) (splice a cs buf) = splice a cs.reverse buf := by
  have hFront : (buf.take a).length = a := by rw [List.length_take, Nat.min_eq_left h]
  have hBoth : (buf.take a ++ cs).length = a + cs.length := by rw [List.length_append, hFront]
  have hTake : (splice a cs buf).take a = buf.take a := by
    rw [splice, List.append_assoc, List.take_left' hFront]
  have hMiddle : ((splice a cs buf).drop a).take cs.length = cs := by
    rw [splice, List.append_assoc, List.drop_left' hFront, List.take_left' rfl]
  have hDrop : (splice a cs buf).drop (a + cs.length) = buf.drop (a + cs.length) := by
    rw [splice, List.drop_left' hBoth]
  rw [reverse, hTake, Nat.add_sub_cancel_left, hMiddle, hDrop, splice, List.length_reverse]

theorem stringAt_append (front : List Char) (hNul : nul ∉ cs) (rest : List Char) :
    stringAt front.length (front ++ (cs ++ nul :: rest)) = some cs := by
  have hKeep (c : Char) (hc : c ∈ cs) : decide (c ≠ nul) = true :=
    decide_eq_true (ne_of_mem_of_not_mem hc hNul)
  rw [stringAt, List.drop_left, if_pos (List.mem_append_right _ List.mem_cons_self),
    List.takeWhile_append_of_pos hKeep, List.takeWhile_cons_of_neg (by simp), List.append_nil]

theorem stringAt_splice (h : a ≤ buf.length) (hNul : nul ∉ cs) :
    stringAt a (splice a (cs ++ [nul]) buf) = some cs := by
  have hFront : (buf.take a).length = a := by rw [List.length_take, Nat.min_eq_left h]
  have hSplice : splice a (cs ++ [nul]) buf =
      buf.take a ++ (cs ++ nul :: buf.drop (a + (cs ++ [nul]).length)) := by
    rw [splice, List.append_assoc, List.append_assoc]
    rfl
  have hString := stringAt_append (buf.take a) hNul (buf.drop (a + (cs ++ [nul]).length))
  rw [hFront, ← hSplice] at hString
  exact hString

end CharBuffer
