import Mathlib.Data.List.Basic
import Mathlib.Data.List.Nodup
import Mathlib.Tactic.Common

/-! Finite sets of keys up to an equality test, as the history of their
successful insertions and erasures. The equality test is any equivalence; it
need not be the identity of the key type. -/
namespace SetHistory

variable {α : Type*} [BEq α]

inductive Event (α : Type*) where
  | inserted (key : α)
  | erased (key : α)

/-- The key was inserted after its last erasure. Histories are newest first. -/
def member : List (Event α) → α → Bool
  | [], _ => false
  | .inserted y :: past, x => y == x || member past x
  | .erased y :: past, x => !(y == x) && member past x

/-- One representative of every member. -/
def keysOf : List (Event α) → List α
  | [] => []
  | .inserted y :: past => if member past y then keysOf past else y :: keysOf past
  | .erased y :: past => (keysOf past).filter fun key => !(key == y)

@[simp] theorem member_nil (x : α) : member [] x = false := rfl

@[simp] theorem member_inserted (past : List (Event α)) (x y : α) :
    member (.inserted y :: past) x = (y == x || member past x) := rfl

@[simp] theorem member_erased (past : List (Event α)) (x y : α) :
    member (.erased y :: past) x = (!(y == x) && member past x) := rfl

theorem length_keysOf_inserted (past : List (Event α)) (y : α) :
    (keysOf (.inserted y :: past)).length =
      (keysOf past).length + if member past y then 0 else 1 := by
  by_cases hy : member past y = true <;> simp [keysOf, hy]

variable [EquivBEq α]

/-- Membership does not tell equal keys apart. -/
theorem member_congr (past : List (Event α)) {x y : α} (hxy : x == y) :
    member past x = member past y := by
  induction past with
  | nil => rfl
  | cons event past ih =>
      cases event with
      | inserted z => simp only [member_inserted, ih, BEq.congr_right hxy]
      | erased z => simp only [member_erased, ih, BEq.congr_right hxy]

theorem member_iff_keysOf (past : List (Event α)) (x : α) :
    member past x = true ↔ ∃ key ∈ keysOf past, key == x := by
  induction past with
  | nil => simp [keysOf]
  | cons event past ih =>
      cases event with
      | inserted y =>
          by_cases hy : member past y = true
          · simp only [member_inserted, keysOf, hy, ↓reduceIte, Bool.or_eq_true, ih]
            constructor
            · rintro (hyx | hx)
              · exact ih.mp (by rw [← member_congr past hyx, hy])
              · exact hx
            · exact Or.inr
          · simp [keysOf, hy, ih]
      | erased y =>
          simp only [member_erased, keysOf, Bool.and_eq_true, ih, List.mem_filter]
          constructor
          · rintro ⟨hyx, key, hKey, hkx⟩
            refine ⟨key, ⟨hKey, ?_⟩, hkx⟩
            rw [BEq.congr_left hkx, BEq.comm]
            exact hyx
          · rintro ⟨key, ⟨hKey, hky⟩, hkx⟩
            refine ⟨?_, key, hKey, hkx⟩
            rw [BEq.comm, ← BEq.congr_left hkx]
            exact hky

/-- No two representatives are equal keys. -/
theorem keysOf_pairwise (past : List (Event α)) :
    (keysOf past).Pairwise fun a b => (a == b) = false := by
  induction past with
  | nil => exact List.Pairwise.nil
  | cons event past ih =>
      cases event with
      | inserted y =>
          by_cases hy : member past y = true
          · simpa [keysOf, hy] using ih
          · simp only [keysOf, hy, Bool.false_eq_true, ↓reduceIte, List.pairwise_cons]
            refine ⟨fun key hKey => ?_, ih⟩
            by_contra hEq
            rw [member_iff_keysOf] at hy
            exact hy ⟨key, hKey, by rw [BEq.comm]; simpa using hEq⟩
      | erased y => exact ih.filter _

/-- Erasing a member removes exactly one representative. -/
theorem length_keysOf_erased (past : List (Event α)) (y : α) (hy : member past y = true) :
    (keysOf (.erased y :: past)).length + 1 = (keysOf past).length := by
  obtain ⟨key, hKey, hky⟩ := (member_iff_keysOf past y).mp hy
  have hPair := keysOf_pairwise past
  simp only [keysOf]
  generalize keysOf past = keys at hKey hPair
  clear hy
  induction keys with
  | nil => simp at hKey
  | cons head rest ih =>
      rw [List.pairwise_cons] at hPair
      rcases List.mem_cons.mp hKey with rfl | hRest
      · have hKeep : rest.filter (fun k => !(k == y)) = rest := by
          rw [List.filter_eq_self]
          intro k hk
          have hne := hPair.1 k hk
          rw [BEq.congr_left hky, BEq.comm] at hne
          simp [hne]
        simp [hky, hKeep]
      · have hHead : (head == y) = false := by
          rw [← BEq.congr_right hky]
          exact hPair.1 key hRest
        simp [hHead, ih hRest hPair.2]

/-- Erasing a key that is not a member removes nothing. -/
theorem keysOf_erased_of_not_member (past : List (Event α)) (y : α)
    (hy : member past y = false) : keysOf (.erased y :: past) = keysOf past := by
  simp only [keysOf]
  rw [List.filter_eq_self]
  intro key hKey
  cases hMatch : key == y with
  | false => rfl
  | true =>
      rw [(member_iff_keysOf past y).mpr ⟨key, hKey, hMatch⟩] at hy
      cases hy

end SetHistory
