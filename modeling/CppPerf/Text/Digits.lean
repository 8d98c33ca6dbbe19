import CppPerf.Semantics.CharBuffer
import Mathlib.Algebra.Ring.Int.Defs
import Mathlib.Algebra.Ring.Nat

/-! The formatting functions of `Digits-Helper.h`. A pointer is an index into the
buffer, and writing outside of the buffer fails, as does an overflow of a number. -/
namespace CppPerf.Text

open CharBuffer

def count_digits (val : Int) : Int :=
  if val ≥ 10000 then
    if val ≥ 1000000 then
      if val ≥ 100000000 then
        if val ≥ 1000000000 then 10 else 9
      else if val ≥ 10000000 then 8 else 7
    else if val ≥ 100000 then 6 else 5
  else if val ≥ 100 then
    if val ≥ 1000 then 4 else 3
  else if val ≥ 10 then 2 else 1

/-- `val % 10 + '0'` -/
def digitOf (val : Int) : Char := Char.ofNat (val.tmod 10 + 48).toNat

/-- Conversion to `int`. -/
def int (x : Int) : Int := x.bmod (2 ^ 32)

/-- The number that is left over is returned as an `int`. -/
def itoa_fill : (len : Nat) → (val pBack : Int) → List Char → Option (List Char × Int)
  | 0, val, _, buf => some (buf, int val)
  | len + 1, val, pBack, buf => do
      let buf ← write pBack (digitOf val) buf
      itoa_fill len (val.tdiv 10) (pBack - 1) buf

/-- The loop of `itoa_new2` and `ftoa2` over the digits of a number. There are fewer
digits than `rounds`. -/
def fillAll : (rounds : Nat) → (val pEnd : Int) → List Char → Option (List Char)
  | 0, _, _, _ => none
  | rounds + 1, val, pEnd, buf =>
      if val > 0 then do
        let buf ← write pEnd (digitOf val) buf
        fillAll rounds (val.tdiv 10) (pEnd - 1) buf
      else some buf

/-- No number of 64 bits has 20 digits or more. -/
def maxRounds : Nat := 20

def itoa_new2 (val : Int) (szValue : List Char) : Option (List Char) :=
  if val = 0 then do
    let buf ← write 0 '0' szValue
    write 1 nul buf
  else if val < 0 then do
    let buf ← write 0 '-' szValue
    if val = -2 ^ 63 then none
    let val := -val
    let pEnd := count_digits val
    let buf ← write (pEnd + 1) nul buf
    fillAll maxRounds val pEnd buf
  else do
    let pEnd := count_digits val - 1
    let buf ← write (pEnd + 1) nul szValue
    fillAll maxRounds val pEnd buf

/-- `itoa_` from the length on, for a number without a sign. -/
def itoaUnsigned (val szValue size : Int) (buf : List Char) : Option (List Char × Int) := do
  let len := min (count_digits val) (size - 1)
  if len < 0 then none
  let (buf, _) ← itoa_fill len.toNat val (szValue + len - 1) buf
  let buf ← write (szValue + len) nul buf
  return (buf, szValue)

/-- The result is the buffer and the pointer that is returned. -/
def itoa_ (val size : Int) (szValue : List Char) : Option (List Char × Int) :=
  if val < 0 then
    if val = -2 ^ 63 then none
    else do
      let buf ← write 0 '-' szValue
      itoaUnsigned (-val) 1 size buf
  else itoaUnsigned val 0 size szValue

end CppPerf.Text
