import CppPerf.Text.Digits

/-! Positions of type `int` in a string. Behind position `2 ^ 31 - 1` they are negative, and
a comparison with a size takes them for a `size_t` that is too large. -/
namespace CppPerf.Text

/-- `s[pos]`, if `pos < s.size()`. -/
def charAt (s : List Char) (pos : Int) : Option Char := if 0 ≤ pos then s[pos.toNat]? else none

/-- `++pos` -/
def following (pos : Int) : Int := int (pos + 1)

/-- The position behind the first characters. -/
def behind (front : List Char) : Int := int front.length

/-- The part of the string that has positions. -/
def visible (s : List Char) : List Char := s.take (2 ^ 31)

variable {s front rest : List Char}

theorem visible_of_length_lt (h : s.length < 2 ^ 31) : visible s = s :=
  List.take_of_length_le (Nat.le_of_lt h)

theorem length_visible_le (s : List Char) : (visible s).length ≤ 2 ^ 31 := by
  rw [visible, List.length_take]
  exact Nat.min_le_left _ _

theorem behind_nil : behind [] = 0 := rfl

theorem behind_of_lt (h : front.length < 2 ^ 31) : behind front = front.length := by
  rw [behind, int, Int.bmod]
  omega

theorem following_behind (front : List Char) (c : Char) :
    following (behind front) = behind (front ++ [c]) := by
  rw [following, behind, behind, int, int, Int.bmod_add_bmod, int, List.length_append,
    List.length_singleton, Int.natCast_add, Int.natCast_one]

/-- There is a next character, or the part that has positions ends. -/
theorem charAt_behind (h : visible s = front ++ rest) : charAt s (behind front) = rest.head? := by
  have hLength := length_visible_le s
  rw [h, List.length_append] at hLength
  rcases Nat.lt_or_ge front.length (2 ^ 31) with hLt | hGe
  · have hGet : s[front.length]? = (visible s)[front.length]? := by
      rw [visible, List.getElem?_take_of_lt hLt]
    rw [charAt, behind_of_lt hLt, if_pos (by omega), Int.toNat_natCast, hGet, h,
      List.getElem?_append_right (Nat.le_refl _), Nat.sub_self, List.head?_eq_getElem?]
  · have hNil : rest = [] := List.length_eq_zero_iff.mp (by omega)
    have hFull : front.length = 2 ^ 31 := by omega
    have hNegative : ¬0 ≤ behind front := by
      rw [behind, hFull]
      decide
    rw [charAt, if_neg hNegative, hNil]
    rfl

end CppPerf.Text
