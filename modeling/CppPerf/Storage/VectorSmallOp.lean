import CppPerf.Semantics.Run

/-! The vector with `N` slots in the object of `smallVec.cpp`. The bytes `raw` are
the list of the objects built in them. `moved` is the value that a move leaves
behind. -/
namespace CppPerf.Storage

open Transition

variable {T : Type*}

/-- What `push_back` refers to: a value elsewhere, or an element of the vector. -/
inductive Argument (T : Type*) where
  | value (d : T)
  | element (i : Nat)

def Argument.deref (storage : List T) : Argument T → Option T
  | .value d => some d
  | .element i => storage[i]?

/-- What the two function pointers point to. -/
inductive Member where
  | small
  | vector

/-- `base` is the vector that the class is derived from. -/
structure VectorSmallOp (T : Type*) where
  raw : List T := []
  use_small : Bool := true
  count : Nat := 0
  p_back : Member := .small
  p_pop_back : Member := .small
  base : List T := []

namespace VectorSmallOp

/-- The loop of `push_back` that moves slot after slot. -/
def moveSlots (moved : T → T) (slots : List Nat) (raw base : List T) : List T × List T :=
  slots.foldl
    (fun (raw, base) i =>
      match raw[i]? with
      | some x => (raw.set i (moved x), base ++ [x])
      | none => (raw, base))
    (raw, base)

/-- The argument is read where it is used: in a slot, after the move, or in the
base vector. `none` is a reference to no element. -/
def push_back (moved : T → T) (N : Nat) (v : VectorSmallOp T) (d : Argument T) :
    Option (VectorSmallOp T) :=
  if v.use_small then
    if v.count = N then
      let (raw, base) := moveSlots moved (List.range N) v.raw v.base
      (d.deref raw).map fun x =>
        { v with
          raw := raw, base := base ++ [x], use_small := false,
          p_back := .vector, p_pop_back := .vector }
    else
      (d.deref v.raw).map fun x =>
        { v with raw := v.raw.take v.count ++ [x], count := v.count + 1 }
  else (d.deref v.base).map fun x => { v with base := v.base ++ [x] }

/-- Not to be called on an empty vector. -/
def pop_back (v : VectorSmallOp T) : Option (VectorSmallOp T) :=
  match v.p_pop_back with
  | .small =>
      if v.count = 0 then none
      else some { v with raw := v.raw.take (v.count - 1), count := v.count - 1 }
  | .vector => if v.base.isEmpty then none else some { v with base := v.base.dropLast }

def back (v : VectorSmallOp T) : Option T :=
  match v.p_back with
  | .small => if v.count = 0 then none else v.raw[v.count - 1]?
  | .vector => v.base.getLast?

def small (v : VectorSmallOp T) : Bool := v.use_small

end VectorSmallOp

inductive StackCall (T : Type*) where
  | push_back (d : Argument T)
  | pop_back

/-- A vector, the stack that it stands for, and whether the stack has had more
than `N` elements. -/
structure StackState (T : Type*) where
  vector : VectorSmallOp T := {}
  stack : List T := []
  crossed : Bool := false

/-- A call, on the vector and on the stack. -/
def stackStep (moved : T → T) (N : Nat) : Step (StackState T) (StackCall T)
  | s, .push_back d => do
      let vector ← s.vector.push_back moved N d
      let x ← d.deref s.stack
      some ⟨vector, s.stack ++ [x], s.crossed || N < (s.stack ++ [x]).length⟩
  | s, .pop_back => do
      let vector ← s.vector.pop_back
      some { s with vector := vector, stack := s.stack.dropLast }

end CppPerf.Storage

/-! The small vector as a stack. On the push that leaves the slots, an argument
in one of them has been moved away before it is read. -/
namespace CppPerf.Storage

open Transition

variable {T : Type*}

namespace VectorSmallOp

theorem moveSlots_eq (moved : T → T) (raw rest base : List T) :
    moveSlots moved (List.range' rest.length raw.length) (rest ++ raw) base =
      (rest ++ raw.map moved, base ++ raw) := by
  induction raw generalizing rest base with
  | nil => simp [moveSlots]
  | cons x raw ih =>
      have hNext := ih (rest ++ [moved x]) (base ++ [x])
      rw [List.length_append, List.length_singleton, List.append_assoc, List.singleton_append]
        at hNext
      rw [List.length_cons, List.range'_succ, moveSlots, List.foldl_cons]
      simp only [List.getElem?_append_right (Nat.le_refl _), Nat.sub_self, List.getElem?_cons_zero]
      rw [List.set_append_right _ _ (Nat.le_refl _), Nat.sub_self, List.set_cons_zero]
      rw [moveSlots] at hNext
      rw [hNext]
      simp

/-- All slots are moved to the base vector. -/
theorem moveSlots_range (moved : T → T) (raw : List T) :
    moveSlots moved (List.range raw.length) raw [] = (raw.map moved, raw) := by
  have hAll := moveSlots_eq moved raw [] []
  rwa [List.length_nil, ← List.range_eq_range'] at hAll

end VectorSmallOp

/-- Where the elements of the stack are. -/
inductive Holds (N : Nat) : StackState T → Prop where
  | small (stack : List T) (h : stack.length ≤ N) :
      Holds N ⟨{ raw := stack, count := stack.length }, stack, false⟩
  | vector (stack raw : List T) (count : Nat) :
      Holds N ⟨{ raw := raw, count := count, use_small := false, p_back := .vector,
                 p_pop_back := .vector, base := stack }, stack, true⟩

/-- The vector answers like the stack. -/
structure IsStack (s : StackState T) : Prop where
  back_eq : s.vector.back = s.stack.getLast?
  small_eq : s.vector.small = !s.crossed

/-- On the push that leaves the slots, the argument is not an element that the
move changes. -/
def PushSafe (moved : T → T) (N : Nat) (s : StackState T) : StackCall T → Prop
  | .push_back (.element i) => s.vector.small = true → s.vector.count = N →
      ∀ x ∈ s.vector.raw[i]?, moved x = x
  | _ => True

variable {moved : T → T} {N : Nat} {s t : StackState T}

theorem Holds.isStack (h : Holds N s) : IsStack s := by
  cases h with
  | small stack h =>
      refine ⟨?_, rfl⟩
      simp only [VectorSmallOp.back, List.getLast?_eq_getElem?]
      split_ifs with hEmpty
      · simp [hEmpty]
      · rfl
  | vector stack raw count => exact ⟨rfl, rfl⟩

theorem deref_map_of_safe {d : Argument T} {raw : List T}
    (h : ∀ i, d = .element i → ∀ x ∈ raw[i]?, moved x = x) :
    d.deref (raw.map moved) = d.deref raw := by
  cases d with
  | value x => rfl
  | element i =>
      simp only [Argument.deref, List.getElem?_map]
      cases hx : raw[i]? with
      | none => rfl
      | some x => rw [Option.map_some, h i rfl x hx]

/-- The push that leaves the slots reads its argument after the move. -/
theorem push_back_full (moved : T → T) (stack : List T) (d : Argument T) :
    ({ raw := stack, count := stack.length } : VectorSmallOp T).push_back moved stack.length d =
      (d.deref (stack.map moved)).map fun x =>
        { raw := stack.map moved, count := stack.length, use_small := false, p_back := .vector,
          p_pop_back := .vector, base := stack ++ [x] } := by
  simp only [VectorSmallOp.push_back, VectorSmallOp.moveSlots_range, ↓reduceIte]

theorem Holds.push (h : Holds N s) {d : Argument T} (hSafe : PushSafe moved N s (.push_back d))
    (hStep : stackStep moved N s (.push_back d) = some t) : Holds N t := by
  cases h with
  | small stack h =>
      by_cases hFull : stack.length = N
      · subst hFull
        have hDeref : d.deref (stack.map moved) = d.deref stack := by
          apply deref_map_of_safe
          rintro i rfl
          exact hSafe rfl rfl
        simp only [stackStep, push_back_full, hDeref] at hStep
        cases hx : d.deref stack with
        | none => simp [hx] at hStep
        | some x =>
            have hCrossed : (false || decide (stack.length < (stack ++ [x]).length)) = true := by
              simp
            simp only [hx, Option.bind_eq_bind, Option.map_some, Option.bind_some, hCrossed,
              Option.some.injEq] at hStep
            subst hStep
            exact Holds.vector _ _ _
      · simp only [stackStep, VectorSmallOp.push_back, hFull, ↓reduceIte] at hStep
        cases hx : d.deref stack with
        | none => simp [hx] at hStep
        | some x =>
            have hLength : (stack ++ [x]).length ≤ N := by
              rw [List.length_append, List.length_singleton]
              omega
            have hCrossed : (false || decide (N < (stack ++ [x]).length)) = false := by
              simpa using hLength
            simp only [hx, Option.bind_eq_bind, Option.map_some, Option.bind_some, hCrossed,
              List.take_length, Option.some.injEq] at hStep
            subst hStep
            have hNext := Holds.small (stack ++ [x]) hLength
            rwa [List.length_append, List.length_singleton] at hNext
  | vector stack raw count =>
      simp only [stackStep, VectorSmallOp.push_back, Bool.false_eq_true, ↓reduceIte] at hStep
      cases hx : d.deref stack with
      | none => simp [hx] at hStep
      | some x =>
          simp only [hx, Option.bind_eq_bind, Option.map_some, Option.bind_some, Bool.true_or,
            Option.some.injEq] at hStep
          subst hStep
          exact Holds.vector _ _ _

theorem Holds.pop (h : Holds N s) (hStep : stackStep moved N s .pop_back = some t) :
    Holds N t := by
  cases h with
  | small stack h =>
      simp only [stackStep, VectorSmallOp.pop_back] at hStep
      split_ifs at hStep with hEmpty
      · cases hStep
      · obtain rfl := Option.some.inj hStep
        have hLength : stack.dropLast.length ≤ N := by
          rw [List.length_dropLast]
          omega
        have hNext := Holds.small stack.dropLast hLength
        rw [List.length_dropLast] at hNext
        rw [← List.dropLast_eq_take]
        exact hNext
  | vector stack raw count =>
      simp only [stackStep, VectorSmallOp.pop_back] at hStep
      split_ifs at hStep with hEmpty
      · cases hStep
      · obtain rfl := Option.some.inj hStep
        exact Holds.vector _ _ _

theorem Holds.step (h : Holds N s) {call : StackCall T} (hSafe : PushSafe moved N s call)
    (hStep : stackStep moved N s call = some t) : Holds N t := by
  cases call with
  | push_back d => exact h.push hSafe hStep
  | pop_back => exact h.pop hStep

/-- An element that the move changes is pushed with its new value. -/
theorem Holds.not_isStack (h : Holds N s) {call : StackCall T} (hUnsafe : ¬PushSafe moved N s call)
    (hStep : stackStep moved N s call = some t) : ¬IsStack t := by
  cases call with
  | pop_back => exact absurd trivial hUnsafe
  | push_back d =>
      cases d with
      | value x => exact absurd trivial hUnsafe
      | element i =>
          simp only [PushSafe, not_forall] at hUnsafe
          obtain ⟨hSmall, hFull, x, hx, hMoved⟩ := hUnsafe
          cases h with
          | vector stack raw count => cases hSmall
          | small stack h =>
              obtain rfl : stack.length = N := hFull
              have hElement : stack[i]? = some x := hx
              simp only [stackStep, push_back_full, Argument.deref, List.getElem?_map, hElement,
                Option.map_some, Option.bind_eq_bind, Option.bind_some, Option.some.injEq] at hStep
              subst hStep
              intro hStack
              have hBack := hStack.back_eq
              simp only [VectorSmallOp.back, List.getLast?_concat, Option.some.injEq] at hBack
              exact hMoved hBack

/-- The vector is a stack throughout a run exactly if no push that leaves the
slots refers to an element that the move changes. -/
theorem always_isStack_iff (moved : T → T) (N : Nat) {calls : List (StackCall T)}
    {finish : StackState T} (hRun : run (stackStep moved N) {} calls = some finish) :
    Always (stackStep moved N) IsStack {} calls ↔
      Guarded (stackStep moved N) (PushSafe moved N) {} calls := by
  have hStart : Holds N ({} : StackState T) := Holds.small [] (Nat.zero_le N)
  exact always_iff_guarded (Holds N) (fun _ _ _ h hSafe hStep => h.step hSafe hStep)
    (fun _ h => h.isStack) (fun _ _ _ h hUnsafe hStep => h.not_isStack hUnsafe hStep) hStart hRun

/-- Values are pushed across the boundary and popped again. -/
theorem always_isStack_iff_values :
    Always (stackStep (fun _ => 0) 1) IsStack {}
        [.push_back (.value 7), .push_back (.value 8), .pop_back, .pop_back] ↔
      Guarded (stackStep (fun _ => 0) 1) (PushSafe (fun _ => 0) 1) {}
        [.push_back (.value 7), .push_back (.value 8), .pop_back, .pop_back] :=
  always_isStack_iff (fun _ => 0) 1 rfl

/-- A move leaves an empty list behind, and `v.push_back(v.back())` pushes it. -/
theorem not_isStack_back :
    ¬Always (stackStep (fun _ => ([] : List Nat)) 1) IsStack {}
      [.push_back (.value [7]), .push_back (.element 0)] := by
  intro hAlways
  have hRun : (run (stackStep (fun _ => ([] : List Nat)) 1) {}
      [.push_back (.value [7]), .push_back (.element 0)]).map
        (fun s => (s.vector.back, s.stack.getLast?)) = some (some [], some [7]) := rfl
  obtain ⟨s, hFinish, hBacks⟩ := Option.map_eq_some_iff.mp hRun
  obtain ⟨hBack, hStack⟩ := Prod.mk.inj hBacks
  have hEq := (hAlways.finish hFinish).back_eq
  rw [hBack, hStack] at hEq
  cases hEq

end CppPerf.Storage
