import Retarget.Word

/-!
# Logical immediates

The bitwise instructions encode a constant only if it repeats an element of 2, 4, 8, 16, 32 or 64
bits that holds one run of ones, rotated by some amount.
-/

namespace Retarget.Target.AArch64

/-- How many of the low `width` bits are set. -/
def popCount (width n : Nat) : Nat :=
  (List.range width).countP n.testBit

/-- How many ones the low `width` bits of `n` end with. -/
def trailingOnes (width n : Nat) : Nat :=
  ((List.range width).takeWhile n.testBit).length

/-- A `width`-bit word turned right by `r` places. -/
def rotateRight (width n r : Nat) : Nat :=
  ((n >>> r) ||| (n <<< (width - r))) % Word.modulus width

/-- Whether some rotation of a `width`-bit word is a run of ones at the low end, neither empty nor
filling the word. -/
def isRotatedRun (width n : Nat) : Bool :=
  let ones := popCount width n
  ones != 0 && ones != width &&
    (List.range width).any fun r => trailingOnes width (rotateRight width n r) == ones

/-- Whether a `width`-bit word repeats its low `size` bits throughout. -/
def repeats (size width n : Nat) : Bool :=
  (List.range (width / size)).all fun k =>
    (n >>> (k * size)) % Word.modulus size == n % Word.modulus size

/-- Whether a constant can be encoded in a bitwise instruction on operands of `bits` bits. -/
def isLogicalImmediate (value : Int) (bits : Nat) : Bool :=
  let width := if 32 < bits then 64 else 32
  let word := Word.low width value
  ([2, 4, 8, 16, 32, 64].filter (· ≤ width)).any fun size =>
    repeats size width word && isRotatedRun size (word % Word.modulus size)

end Retarget.Target.AArch64
