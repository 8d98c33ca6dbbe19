import CppPerf.Ownership.SharedPtrCounts

/-! Every operation keeps the counts, whatever handles it is given: the same
one twice, two of the same object or empty ones. -/
namespace CppPerf.Ownership.SharedPtr.World

open Indexed Transition

variable {w w' : World} {i j : Nat} {h : SharedPtr}

theorem handle_of_set (hSet : w'.handles = w.handles.set i (some h)) (j : Nat) :
    w'.handle j = if j = i then h else w.handle j := by
  rw [handle, hSet, Vec.get_set]
  split_ifs
  · rfl
  · rfl

theorem alive_of_set (hSet : w'.handles = w.handles.set i (some h)) (hAlive : w.alive j) :
    w'.alive j := by
  obtain ⟨hj, hGet⟩ := alive_iff.mp hAlive
  rw [alive, hSet, Vec.size_set, Vec.get_set]
  split_ifs
  · simp [hj]
  · simp [hj, hGet]

theorem handle_push (hAlive : w.alive j) : (w.pushHandle h).handle j = w.handle j := by
  rw [handle, pushHandle, Vec.get_push_of_lt _ _ (alive_iff.mp hAlive).1]
  rfl

theorem alive_push (hAlive : w.alive j) : (w.pushHandle h).alive j := by
  obtain ⟨hj, hGet⟩ := alive_iff.mp hAlive
  have hLt : j < w.handles.size + 1 := by omega
  simp [alive, pushHandle, Vec.get_push_of_lt _ _ hj, hGet, hLt]

/-- The new handle is empty before it takes over what the other one holds. -/
theorem pushHandle_eq : w.pushHandle h = (w.pushHandle {}).setHandle w.handles.size h := by
  simp only [pushHandle, setHandle, Vec.push, Vec.set]
  congr 2
  funext k
  split_ifs
  · rfl
  · rfl

theorem two_le_holders (hAlive : w.alive i) (hAlive' : w.alive j) (hNe : i ≠ j)
    (hSame : (w.handle i).counter = (w.handle j).counter) :
    2 ≤ holders w.handles (w.handle i).counter := by
  obtain ⟨hi, hGet⟩ := alive_iff.mp hAlive
  obtain ⟨hj, hGet'⟩ := alive_iff.mp hAlive'
  have hFirst : holdsCounter (w.handle i).counter (w.handles.get i) = true := by
    rw [hGet]
    exact beq_self_eq_true _
  have hSecond : holdsCounter (w.handle i).counter (w.handles.get j) = true := by
    rw [hGet']
    exact beq_iff_eq.mpr hSame.symm
  have hTwo := Vec.add_le_total (fun x => (holdsCounter (w.handle i).counter x).toNat)
    w.handles hi hj hNe
  rwa [hFirst, hSecond] at hTwo

namespace Consistent

variable (hc : w.Consistent)
include hc

theorem pushEmpty : (w.pushHandle {}).Consistent := by
  apply hc.rearrange
  · intro x hx
    rcases (holds_push _).mp hx with hEq | hOld
    · exact Or.inr (Option.some.inj hEq).symm
    · exact Or.inl hOld
  · intro x _ hx
    exact (holds_push _).mpr (Or.inr hx)
  · intro c hc0
    rw [holders_push, holdsCounter_empty hc0]
    rfl

/-- An empty handle becomes one more of what another handle holds. -/
theorem fill (hAlive : w.alive i) (hEmpty : w.handle i = {}) (hOther : w.alive j)
    (hSome : (w.handle j).naked ≠ 0) :
    ((w.setHandle i (w.handle j)).addCount (w.handle j).counter 1).Consistent := by
  obtain ⟨hi, hGet⟩ := alive_iff.mp hAlive
  rw [hEmpty] at hGet
  apply hc.acquire (holds_handle hOther) hSome
  · intro x hx
    rcases (holds_set _ hi).mp hx with hEq | ⟨k, hk, _, hSlot⟩
    · exact Or.inl (Option.some.inj hEq ▸ holds_handle hOther)
    · exact Or.inl ⟨k, hk, hSlot⟩
  · rintro x hx ⟨k, hk, hSlot⟩
    refine (holds_set _ hi).mpr (Or.inr ⟨k, hk, ?_, hSlot⟩)
    rintro rfl
    exact hx (Option.some.inj (hSlot.symm.trans hGet) ▸ rfl)
  · intro c hc0
    have hSet := holders_set (some (w.handle j)) hi c
    rwa [hGet, holdsCounter_empty hc0, Bool.toNat_false, Nat.add_zero, holdsCounter] at hSet

/-- An empty handle takes over what another one holds. -/
theorem transfer (hAlive : w.alive i) (hEmpty : w.handle i = {}) (hOther : w.alive j)
    (hNe : i ≠ j) : ((w.setHandle i (w.handle j)).setHandle j {}).Consistent := by
  obtain ⟨hi, hGet⟩ := alive_iff.mp hAlive
  obtain ⟨hj, hGet'⟩ := alive_iff.mp hOther
  rw [hEmpty] at hGet
  have hj' : j < (w.handles.set i (some (w.handle j))).size := hj
  apply hc.rearrange
  · intro x hx
    rcases (holds_set _ hj').mp hx with hEq | ⟨k, hk, _, hSlot⟩
    · exact Or.inr (Option.some.inj hEq).symm
    · rcases (holds_set _ hi).mp ⟨k, hk, hSlot⟩ with hEq | ⟨k, hk, _, hSlot⟩
      · exact Or.inl (Option.some.inj hEq ▸ holds_handle hOther)
      · exact Or.inl ⟨k, hk, hSlot⟩
  · rintro x hx ⟨k, hk, hSlot⟩
    have hki : k ≠ i := by
      rintro rfl
      exact hx (Option.some.inj (hSlot.symm.trans hGet) ▸ rfl)
    by_cases hkj : k = j
    · subst hkj
      refine ⟨i, hi, ?_⟩
      change ((w.handles.set i _).set k _).get i = _
      rw [Vec.get_set_of_ne _ _ hNe, Vec.get_set_self, ← hSlot, hGet']
    · refine ⟨k, hk, ?_⟩
      change ((w.handles.set i _).set j _).get k = _
      rw [Vec.get_set_of_ne _ _ hkj, Vec.get_set_of_ne _ _ hki, hSlot]
  · intro c hc0
    have hFirst := holders_set (some (w.handle j)) hi c
    have hSecond := holders_set (some {}) hj' c
    rw [Vec.get_set_of_ne _ _ hNe.symm, hGet'] at hSecond
    rw [hGet] at hFirst
    rw [holdsCounter_empty hc0, Bool.toNat_false] at hFirst hSecond
    change holders ((w.handles.set i _).set j _) c = _
    omega

theorem copyConstruct (hOther : w.alive j) : (w.copyConstruct j).Consistent := by
  by_cases hSome : (w.handle j).naked ≠ 0
  · have hFill := hc.pushEmpty.fill (i := w.handles.size) (by simp [alive, pushHandle])
      (by simp [handle, pushHandle]) (alive_push hOther) (by rwa [handle_push hOther])
    rw [handle_push hOther, ← pushHandle_eq] at hFill
    simpa [World.copyConstruct, hSome] using hFill
  · simpa [World.copyConstruct, hSome] using hc.pushEmpty

theorem moveConstruct (hOther : w.alive j) : (w.moveConstruct j).Consistent := by
  have hNe : w.handles.size ≠ j := (alive_iff.mp hOther).1.ne'
  have hMove := hc.pushEmpty.transfer (i := w.handles.size) (by simp [alive, pushHandle])
    (by simp [handle, pushHandle]) (alive_push hOther) hNe
  rwa [handle_push hOther, ← pushHandle_eq] at hMove

theorem copyAssign (hAlive : w.alive i) (hOther : w.alive j)
    (hGuard : w.TellsLast (.copyAssign i j)) : (w.copyAssign i j).Consistent := by
  rw [World.copyAssign]
  split_ifs with hDifferent
  · obtain ⟨hGone, hSet⟩ := hc.deleteMe hAlive (hGuard i (if_pos hDifferent))
    have hEmpty : (w.deleteMe i).handle i = {} := by rw [handle_of_set hSet, if_pos rfl]
    rw [copy]
    split_ifs with hSome
    · exact hGone.fill (alive_of_set hSet hAlive) hEmpty (alive_of_set hSet hOther) hSome
    · have hNull := hGone.eq_empty (holds_handle (alive_of_set hSet hOther)) (not_not.mp hSome)
      have hGet := (alive_iff.mp (alive_of_set hSet hAlive)).2
      rw [hEmpty] at hGet
      rw [hNull, setHandle, Vec.set_eq_self _ hGet]
      exact hGone
  · exact hc

theorem moveAssign (hAlive : w.alive i) (hOther : w.alive j)
    (hGuard : w.TellsLast (.moveAssign i j)) : (w.moveAssign i j).Consistent := by
  rw [World.moveAssign]
  split_ifs with hNe hSame hSome
  · -- The other handle lets go, and this one is left, so nothing is deleted.
    have hBlock := (hc.pairs _ _ (holds_handle hAlive) (holds_handle hOther)).mp hSame
    rw [hBlock]
    rw [hSame] at hSome
    exact hc.unshare hOther hSome (two_le_holders hOther hAlive hNe.symm hBlock.symm)
  · have hNull := hc.eq_empty (holds_handle hOther) (hSame ▸ not_not.mp hSome)
    have hGet := (alive_iff.mp hOther).2
    rw [hNull] at hGet
    rw [setHandle, Vec.set_eq_self _ hGet]
    exact hc
  · obtain ⟨hGone, hSet⟩ := hc.deleteMe hAlive (hGuard i (if_pos ⟨hNe, hSame⟩))
    have hEmpty : (w.deleteMe i).handle i = {} := by rw [handle_of_set hSet, if_pos rfl]
    exact hGone.transfer (alive_of_set hSet hAlive) hEmpty (alive_of_set hSet hOther) hNe
  · exact hc

theorem destroy (hAlive : w.alive i) (hGuard : w.TellsLast (.destroy i)) :
    (w.destroy i).Consistent := by
  obtain ⟨hGone, hSet⟩ := hc.deleteMe hAlive (hGuard i rfl)
  have hGet := (alive_iff.mp (alive_of_set hSet hAlive)).2
  rw [handle_of_set hSet, if_pos rfl] at hGet
  have hi := (alive_iff.mp (alive_of_set hSet hAlive)).1
  apply hGone.rearrange
  · intro x hx
    rcases (holds_set _ hi).mp hx with hEq | ⟨k, hk, _, hSlot⟩
    · cases hEq
    · exact Or.inl ⟨k, hk, hSlot⟩
  · rintro x hx ⟨k, hk, hSlot⟩
    refine (holds_set _ hi).mpr (Or.inr ⟨k, hk, ?_, hSlot⟩)
    rintro rfl
    exact hx (Option.some.inj (hSlot.symm.trans hGet) ▸ rfl)
  · intro c hc0
    have hCount := holders_set none hi c
    rwa [hGet, holdsCounter_empty hc0] at hCount

theorem step {action : Action} (hGuard : w.TellsLast action)
    (hStep : w.step action = some w') : w'.Consistent := by
  cases action with
  | construct data counter =>
      simp only [World.step] at hStep
      split_ifs at hStep with hNull hNew
      · obtain rfl := Option.some.inj hStep
        exact hc.pushEmpty
      · obtain rfl := Option.some.inj hStep
        exact hc.fresh hNull hNew.1 hNew.2.1 hNew.2.2
  | copyConstruct other =>
      obtain ⟨hOther, rfl⟩ := of_ite_eq_some hStep
      exact hc.copyConstruct hOther
  | moveConstruct other =>
      obtain ⟨hOther, rfl⟩ := of_ite_eq_some hStep
      exact hc.moveConstruct hOther
  | copyAssign this other =>
      obtain ⟨⟨hAlive, hOther⟩, rfl⟩ := of_ite_eq_some hStep
      exact hc.copyAssign hAlive hOther hGuard
  | moveAssign this other =>
      obtain ⟨⟨hAlive, hOther⟩, rfl⟩ := of_ite_eq_some hStep
      exact hc.moveAssign hAlive hOther hGuard
  | destroy this =>
      obtain ⟨hAlive, rfl⟩ := of_ite_eq_some hStep
      exact hc.destroy hAlive hGuard

end Consistent

theorem initial_consistent : initial.Consistent := by
  have hNone : ∀ h, ¬Holds initial.handles h := by
    rintro h ⟨i, hi, _⟩
    exact absurd hi (Nat.not_lt_zero i)
  constructor
  case null => exact fun h hHolds => absurd hHolds (hNone h)
  case pairs => exact fun h _ hHolds => absurd hHolds (hNone h)
  case counted => exact fun _ _ => rfl
  case objects =>
    intro naked _
    constructor
    · intro hFalse
      cases hFalse
    · rintro ⟨h, hHolds, _⟩
      exact absurd hHolds (hNone h)
  case defined => rfl

/-- A handle holds an object that was deleted. -/
def Dangles (w : World) : Prop :=
  ∃ k < w.handles.size, ∃ h, w.handles.get k = some h ∧ h.naked ≠ 0 ∧ w.objects h.naked = false

theorem Sound.not_dangles (hw : w.Sound) : ¬w.Dangles := by
  rintro ⟨k, hk, h, hGet, hSome, hDeleted⟩
  have hObject := (hw.objects h.naked hSome).mpr ⟨h, ⟨k, hk, hGet⟩, rfl⟩
  rw [hDeleted] at hObject
  cases hObject

@[simp] theorem handles_addCount (w : World) (counter : Nat) (n : Int32) :
    (w.addCount counter n).handles = w.handles := by
  rw [addCount]
  split
  · rfl
  · rfl

@[simp] theorem objects_addCount (w : World) (counter : Nat) (n : Int32) :
    (w.addCount counter n).objects = w.objects := by
  rw [addCount]
  split
  · rfl
  · rfl

@[simp] theorem handles_copy (w : World) (i j : Nat) :
    (w.copy i j).handles = w.handles.set i (some (w.handle j)) := by
  rw [copy]
  split_ifs
  · exact handles_addCount _ _ _
  · rfl

@[simp] theorem objects_copy (w : World) (i j : Nat) : (w.copy i j).objects = w.objects := by
  rw [copy]
  split_ifs
  · exact objects_addCount _ _ _
  · rfl

/-- With so many handles that the count is one again, the object goes while
another handle holds it. -/
theorem Consistent.deletes_shared (hc : w.Consistent) (hAlive : w.alive i)
    (hSome : (w.handle i).naked ≠ 0)
    (hLooks : holders w.handles (w.handle i).counter % 2 ^ 32 = 1)
    (hNot : holders w.handles (w.handle i).counter ≠ 1) :
    (w.deleteMe i).objects (w.handle i).naked = false ∧
      (w.deleteMe i).handles = w.handles.set i (some {}) ∧
      ∃ k < w.handles.size, k ≠ i ∧ w.handles.get k = some (w.handle i) := by
  have hRef := hc.refs_eq (holds_handle hAlive) hSome
  have hOne := ofNat_eq_one.mpr hLooks
  refine ⟨?_, ?_, hc.exists_other hAlive hSome (by omega)⟩
  · simp [World.deleteMe, hSome, hRef, hOne, setHandle, deleteRef, deleteObject]
  · simp [World.deleteMe, hSome, hRef, hOne, setHandle, deleteRef, deleteObject]

theorem Consistent.dangles (hc : w.Consistent) {action : Action} (hGuard : ¬w.TellsLast action)
    (hStep : w.step action = some w') : w'.Dangles := by
  simp only [TellsLast, not_forall] at hGuard
  obtain ⟨i, hReleased, hSome, hLooks, hNot⟩ := hGuard
  cases action with
  | construct data counter => cases hReleased
  | copyConstruct other => cases hReleased
  | moveConstruct other => cases hReleased
  | copyAssign this other =>
      obtain ⟨⟨hAlive, hOther⟩, rfl⟩ := of_ite_eq_some hStep
      obtain ⟨hDifferent, rfl⟩ := of_ite_eq_some hReleased
      obtain ⟨hDeleted, hSet, k, hk, hNe, hGet⟩ := hc.deletes_shared hAlive hSome hLooks hNot
      rw [World.copyAssign, if_pos hDifferent]
      refine ⟨k, ?_, w.handle this, ?_, hSome, ?_⟩
      · simpa [hSet] using hk
      · simpa [hSet, Vec.get_set, hNe] using hGet
      · simpa using hDeleted
  | moveAssign this other =>
      obtain ⟨⟨hAlive, hOther⟩, rfl⟩ := of_ite_eq_some hStep
      obtain ⟨hDifferent, rfl⟩ := of_ite_eq_some hReleased
      obtain ⟨hDeleted, hSet, k, hk, hNe, hGet⟩ := hc.deletes_shared hAlive hSome hLooks hNot
      have hko : k ≠ other := by
        rintro rfl
        rw [(alive_iff.mp hOther).2] at hGet
        exact hDifferent.2 (Option.some.inj hGet ▸ rfl)
      rw [World.moveAssign, if_pos hDifferent.1, if_neg hDifferent.2]
      refine ⟨k, ?_, w.handle this, ?_, hSome, hDeleted⟩
      · simpa [setHandle, hSet] using hk
      · simpa [setHandle, hSet, Vec.get_set, hNe, hko] using hGet
  | destroy this =>
      obtain ⟨hAlive, rfl⟩ := of_ite_eq_some hStep
      obtain rfl := Option.some.inj hReleased
      obtain ⟨hDeleted, hSet, k, hk, hNe, hGet⟩ := hc.deletes_shared hAlive hSome hLooks hNot
      refine ⟨k, ?_, w.handle this, ?_, hSome, hDeleted⟩
      · simpa [World.destroy, hSet] using hk
      · simpa [World.destroy, hSet, Vec.get_set, hNe] using hGet

theorem size_deleteMe (w : World) (i : Nat) :
    (w.deleteMe i).handles.size = w.handles.size := by
  rw [deleteMe]
  split_ifs
  · cases w.refs (w.handle i).counter with
    | none => rfl
    | some count =>
        dsimp only
        split_ifs
        · rfl
        · simp [setHandle]
  · rfl

theorem size_step {action : Action} (hStep : w.step action = some w') :
    w'.handles.size ≤ w.handles.size + 1 := by
  cases action with
  | construct data counter =>
      simp only [step] at hStep
      split_ifs at hStep
      · obtain rfl := Option.some.inj hStep
        exact Nat.le_refl _
      · obtain rfl := Option.some.inj hStep
        exact Nat.le_refl _
  | copyConstruct other =>
      obtain ⟨_, rfl⟩ := of_ite_eq_some hStep
      rw [copyConstruct]
      split_ifs
      · simp [pushHandle]
      · exact Nat.le_refl _
  | moveConstruct other =>
      obtain ⟨_, rfl⟩ := of_ite_eq_some hStep
      exact Nat.le_refl _
  | copyAssign this other =>
      obtain ⟨_, rfl⟩ := of_ite_eq_some hStep
      rw [copyAssign]
      split_ifs
      · simp [size_deleteMe]
      · exact Nat.le_succ _
  | moveAssign this other =>
      obtain ⟨_, rfl⟩ := of_ite_eq_some hStep
      rw [moveAssign]
      split_ifs
      · simp [setHandle]
      · exact Nat.le_succ _
      · simp [setHandle, size_deleteMe]
      · exact Nat.le_succ _
  | destroy this =>
      obtain ⟨_, rfl⟩ := of_ite_eq_some hStep
      simp [destroy, size_deleteMe]

/-- It takes more than `2 ^ 32` operations to get it wrong. -/
theorem guarded_of_length (actions : List Action)
    (hFew : w.handles.size + actions.length ≤ 2 ^ 32) : Guarded step TellsLast w actions := by
  induction actions generalizing w with
  | nil => exact trivial
  | cons action rest ih =>
      rw [List.length_cons] at hFew
      constructor
      · intro i _ _ hLooks
        have hSize := w.handles.count_le_size (holdsCounter (w.handle i).counter)
        rw [← holders] at hSize
        omega
      · intro w' hStep
        have hSize := size_step hStep
        exact ih (by omega)

/-- The counts and the objects are right throughout a run if and only if no
handle is taken for the last one that is not. -/
theorem sound_iff_tellsLast (actions : List Action) {finish : World}
    (hRun : run step initial actions = some finish) :
    Always step Sound initial actions ↔ Guarded step TellsLast initial actions :=
  always_iff_guarded Consistent (fun _ _ _ hc hGuard hStep => hc.step hGuard hStep)
    (fun _ hc => hc.sound)
    (fun _ _ _ hc hGuard hStep hw => hw.not_dangles (hc.dangles hGuard hStep))
    initial_consistent hRun

theorem sound_iff_tellsLast_moved :
    Always step Sound initial
      [.construct 1 1, .copyConstruct 0, .construct 2 2, .copyAssign 1 2, .moveAssign 0 1,
        .destroy 0] :=
  (sound_iff_tellsLast _ rfl).mpr (guarded_of_length _ (by decide))

/-- An object, its control block and the first handle, which is copied. -/
theorem run_copies (n : Nat) :
    ∃ w, run step initial (.construct 1 1 :: List.replicate n (.copyConstruct 0)) = some w ∧
      w.Consistent ∧ w.alive 0 ∧ w.handle 0 = ⟨1, 1⟩ ∧ holders w.handles 1 = n + 1 := by
  induction n with
  | zero =>
      have hGuard : TellsLast initial (.construct 1 1) := fun _ hNone => by cases hNone
      exact ⟨_, rfl, initial_consistent.step hGuard rfl, rfl, rfl, rfl⟩
  | succ n ih =>
      obtain ⟨w, hRun, hc, hAlive, hHandle, hHolders⟩ := ih
      have hSome : (w.handle 0).naked ≠ 0 := by simp [hHandle]
      have hCopy : w.copyConstruct 0 = (w.pushHandle ⟨1, 1⟩).addCount 1 1 := by
        simp [copyConstruct, hHandle]
      refine ⟨w.copyConstruct 0, ?_, hc.copyConstruct hAlive, ?_, ?_, ?_⟩
      · rw [List.replicate_succ', ← List.cons_append, run_append, hRun]
        simp [step, hAlive]
      · rw [hCopy, alive, handles_addCount]
        exact alive_push hAlive
      · rw [hCopy, handle, handles_addCount]
        exact (handle_push hAlive).trans hHandle
      · rw [hCopy, handles_addCount, pushHandle, holders_push, hHolders]
        rfl

/-- With `2 ^ 31` handles the count is negative. With one handle more than
`2 ^ 32` it is one, and the destructor of any of them deletes the object. -/
theorem copies_overflow :
    (∃ w, run step initial (.construct 1 1 :: List.replicate (2 ^ 31 - 1) (.copyConstruct 0)) =
        some w ∧ holders w.handles 1 = 2 ^ 31 ∧ w.refs 1 = some (-2 ^ 31)) ∧
    ∃ w, run step initial ((.construct 1 1 :: List.replicate (2 ^ 32) (.copyConstruct 0)) ++
        [.destroy 0]) = some w ∧ w.Dangles := by
  constructor
  · obtain ⟨w, hRun, hc, hAlive, hHandle, hHolders⟩ := run_copies (2 ^ 31 - 1)
    refine ⟨w, hRun, hHolders, ?_⟩
    have hRef := hc.refs_eq (holds_handle hAlive) (by simp [hHandle])
    rw [hHandle, hHolders] at hRef
    exact hRef
  · obtain ⟨w, hRun, hc, hAlive, hHandle, hHolders⟩ := run_copies (2 ^ 32)
    have hStep : w.step (.destroy 0) = some (w.destroy 0) := by simp [step, hAlive]
    refine ⟨w.destroy 0, ?_, hc.dangles ?_ hStep⟩
    · rw [run_append, hRun]
      simp [hStep]
    · intro hTells
      have hSome : (w.handle 0).naked ≠ 0 := by simp [hHandle]
      have hOne := hTells 0 rfl hSome
      rw [hHandle, hHolders] at hOne
      exact absurd (hOne rfl) (by decide)

end CppPerf.Ownership.SharedPtr.World
