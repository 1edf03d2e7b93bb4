/-!
# Shortest decimals

A binary64 number is `mantissa · 2 ^ exponent`, and a decimal reads back as that number exactly if
it lies in the interval between the midpoints to its two neighbours; the ends belong to it if the
mantissa is even.  The shortest decimal is searched on grids of one, two, … seventeen digits: if a
point of a grid lies in the interval, so does one of the two grid points next to the number.
-/

namespace Retarget.Decimal

/-- A positive number `mantissa · 2 ^ exponent`. -/
structure Binary where
  mantissa : Nat
  exponent : Int
deriving DecidableEq

/-- The leading bit of a normal mantissa, which a word leaves out: `2 ^ 52`. -/
def hiddenBit : Nat := 0x10000000000000

/-- The magnitude that the low 63 bits of a binary64 word stand for. -/
def Binary.ofBits (bits : Nat) : Binary :=
  let biased : Nat := (bits >>> 52) % 2048
  let fraction : Nat := bits % hiddenBit
  if biased = 0 then ⟨fraction, -1074⟩ else ⟨hiddenBit + fraction, biased - 1075⟩

/-- The numbers that round to one binary number, over a common denominator. -/
structure Interval where
  low : Nat
  value : Nat
  high : Nat
  denominator : Nat
  /-- Whether the two ends belong to it. -/
  closed : Bool

/-- The interval around a binary number.  Below a power of two the gap is half as wide, except at
the smallest exponent. -/
def Interval.around (b : Binary) : Interval :=
  let scale := Nat.pow 2 (b.exponent - 2).toNat
  let below := if b.mantissa = hiddenBit ∧ -1074 < b.exponent then 1 else 2
  { low := (4 * b.mantissa - below) * scale
    value := 4 * b.mantissa * scale
    high := (4 * b.mantissa + 2) * scale
    denominator := Nat.pow 2 (2 - b.exponent).toNat
    closed := b.mantissa % 2 = 0 }

/-- Whether the decimal `digits · 10 ^ power` lies in the interval. -/
def Interval.contains (i : Interval) (digits : Nat) (power : Int) : Bool :=
  let point := digits * Nat.pow 10 power.toNat * i.denominator
  let unit := Nat.pow 10 (-power).toNat
  if i.closed then i.low * unit ≤ point && point ≤ i.high * unit
  else i.low * unit < point && point < i.high * unit

/-- Which of two equally near decimals is taken. -/
inductive Tie where
  | up
  | toEven
deriving DecidableEq

/-- A decimal `digits · 10 ^ power`. -/
structure Scaled where
  digits : Nat
  power : Int
deriving DecidableEq

/-- The decimal on the grid of `10 ^ power` in the interval that is nearest to its value. -/
def Interval.nearest? (i : Interval) (tie : Tie) (power : Int) : Option Scaled :=
  let value := i.value * Nat.pow 10 (-power).toNat
  let unit := i.denominator * Nat.pow 10 power.toNat
  let below := value / unit
  let rest := 2 * (value % unit)
  let above := rest > unit || (rest == unit && (tie == .up || below % 2 == 1))
  match i.contains below power, i.contains (below + 1) power with
  | true, true => some ⟨if above then below + 1 else below, power⟩
  | true, false => some ⟨below, power⟩
  | false, true => some ⟨below + 1, power⟩
  | false, false => none

def digitCount (n : Nat) : Nat := (Nat.toDigits 10 n).length

/-- The number of digits before the decimal point of `value / denominator`; for a fraction, minus
the number of zeros behind it. -/
def pointPosition (value denominator : Nat) : Int :=
  if denominator ≤ value then digitCount (value / denominator)
  else
    -- The quotient has at least this many zeros behind the point.
    let zeros := digitCount (denominator / value) - 1
    if denominator ≤ value * Nat.pow 10 zeros then 1 - zeros else - zeros

/-- The shortest decimal in the interval around a positive binary number. -/
def Binary.shortest (b : Binary) (tie : Tie) : Scaled :=
  let i := Interval.around b
  let position := pointPosition i.value i.denominator
  let grids := (List.range 17).map fun n => position - ((n + 1 : Nat) : Int)
  (grids.findSome? (i.nearest? tie)).getD ⟨0, 0⟩

/-- Significant digits without zeros at the end, and the exponent of the first digit. -/
structure Digits where
  digits : List Char
  exponent : Int
deriving DecidableEq

def Scaled.toDigits (s : Scaled) : Digits :=
  let all := Nat.toDigits 10 s.digits
  { digits := (all.reverse.dropWhile (· == '0')).reverse
    exponent := s.power + all.length - 1 }

end Retarget.Decimal
