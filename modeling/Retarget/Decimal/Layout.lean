import Retarget.Decimal.Shortest

/-!
# Decimal text of numbers

The digits of a number are the shortest ones that read back; how they are laid out is the decision
of the format that shows them.
-/

namespace Retarget.Decimal

/-- The decisions of a format. -/
structure Layout where
  /-- Which exponents of the first digit are written without an exponent. -/
  positional : Int → Bool
  /-- Whether a whole number keeps `.0`, where no exponent is written. -/
  keepsPoint : Bool
  /-- Whether a positive exponent has a sign. -/
  signsExponent : Bool
  tie : Tie
  infinity : String
  notNumber : String

namespace Layout

/-- Digits with the decimal point in place, as many zeros as that takes, and no exponent. -/
def place (l : Layout) (d : Digits) : List Char :=
  if d.exponent < 0 then
    '0' :: '.' :: List.replicate (-1 - d.exponent).toNat '0' ++ d.digits
  else
    let whole := d.exponent.toNat + 1
    let fraction := d.digits.drop whole
    let before := d.digits.take whole ++ List.replicate (whole - d.digits.length) '0'
    if fraction.isEmpty then before ++ (if l.keepsPoint then ['.', '0'] else [])
    else before ++ '.' :: fraction

/-- One digit before the point, and an exponent. -/
def scientific (l : Layout) (d : Digits) : List Char :=
  let fraction := d.digits.drop 1
  let sign := if l.signsExponent && 0 ≤ d.exponent then ['+'] else []
  d.digits.take 1 ++ (if fraction.isEmpty then [] else '.' :: fraction) ++
    'e' :: sign ++ (toString d.exponent).toList

/-- The text of a magnitude that is not zero. -/
def magnitude (l : Layout) (b : Binary) : List Char :=
  let d := (b.shortest l.tie).toDigits
  if l.positional d.exponent then l.place d else l.scientific d

/-- The text of the magnitude in the low 63 bits of a word. -/
def unsigned (l : Layout) (bits : Nat) : List Char :=
  if bits = 0 then if l.keepsPoint then ['0', '.', '0'] else ['0']
  else l.magnitude (.ofBits bits)

def text (l : Layout) (x : Float) : String :=
  let bits := x.toBits.toNat
  let rest := bits % 0x8000000000000000
  let isNegative := bits ≠ rest
  if 0x7ff * hiddenBit < rest then l.notNumber
  else if rest = 0x7ff * hiddenBit then (if isNegative then "-" ++ l.infinity else l.infinity)
  else String.ofList ((if isNegative then ['-'] else []) ++ l.unsigned rest)

end Layout

/-- Numbers in messages: never an exponent, and no point in a whole number. -/
def plain : Layout where
  positional _ := true
  keepsPoint := false
  signsExponent := false
  tie := .up
  infinity := "inf"
  notNumber := "NaN"

end Retarget.Decimal
