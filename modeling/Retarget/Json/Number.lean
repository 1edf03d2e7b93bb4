import Retarget.Json.Basic
import Retarget.Word

/-!
# Numbers in JSON text

The digits of a number are gathered into a 64-bit significand as far as they fit, and the
significand is scaled by a power of ten.  Digits of the whole part that do not fit count as zeros,
digits of the fraction that do not fit are dropped.
-/

namespace Retarget.Json

def digitValue (c : Char) : Nat := c.toNat - 48

/-- Appends digits to a number as long as it fits 64 bits, and answers the digits left. -/
def gather (significand : Nat) : List Char → Nat × List Char
  | [] => (significand, [])
  | c :: rest =>
    let next := 10 * significand + digitValue c
    if next < Word.modulus 64 then gather next rest else (significand, c :: rest)

/-- The number that digits write. -/
def digitsValue (digits : List Char) : Nat :=
  digits.foldl (fun n c => 10 * n + digitValue c) 0

/-! ## Scaling -/

/-- The largest power of ten that is taken in one step. -/
def maxPower : Nat := 308

def powerOfTen (n : Nat) : Float := Float.ofScientific 1 false n

/-- `x / 10 ^ n`, in steps of at most `maxPower`. -/
def divideByPower (x : Float) (n : Nat) : Float :=
  if n ≤ maxPower then x / powerOfTen n
  else if x == 0.0 then x
  else divideByPower (x / powerOfTen maxPower) (n - maxPower)
termination_by n
decreasing_by simp [maxPower] at *; omega

/-- `significand · 10 ^ exponent`, unless it is too large. -/
def scale? (significand : Nat) (exponent : Int) : Option Float :=
  let x := Float.ofNat significand
  if exponent < 0 then some (divideByPower x (-exponent).toNat)
  else if exponent ≤ maxPower then
    let y := x * powerOfTen exponent.toNat
    if y.isInf then none else some y
  else if x == 0.0 then some x
  else none

/-- The value nearest to `n` that a signed 32-bit word holds. -/
def saturate (n : Int) : Int := max (-Word.modulus 31) (min (Word.modulus 31 - 1) n)

/-- `significand · 10 ^ (start + power)`.  A written power past 31 bits makes every number but zero
too large or zero. -/
def scaleBy? (significand : Nat) (start power : Int) : Option Float :=
  if power.natAbs < Word.modulus 31 then scale? significand (saturate (start + power))
  else if significand ≠ 0 && 0 < power then none
  else some 0.0

/-! ## Tokens -/

/-- The parts of a number token. -/
structure NumberToken where
  isNegative : Bool
  whole : List Char
  fraction : Option (List Char)
  exponent : Option Int

def readDigits? (cs : List Char) : Option (List Char × List Char) :=
  let digits := cs.takeWhile Char.isDigit
  if digits.isEmpty then none else some (digits, cs.dropWhile Char.isDigit)

/-- A fraction, if there is one; a point needs digits behind it. -/
def readFraction? : List Char → Option (Option (List Char) × List Char)
  | '.' :: rest => (readDigits? rest).map fun (digits, rest) => (some digits, rest)
  | cs => some (none, cs)

/-- The digits of an exponent behind its sign. -/
def readPower? (isNegative : Bool) (cs : List Char) : Option (Int × List Char) :=
  (readDigits? cs).map fun (digits, rest) =>
    (if isNegative then -(digitsValue digits : Int) else digitsValue digits, rest)

/-- An exponent, if there is one; its mark needs digits behind it. -/
def readExponent? (cs : List Char) : Option (Option Int × List Char) :=
  match cs with
  | c :: rest =>
    if c = 'e' ∨ c = 'E' then
      let power := match rest with
        | '+' :: rest => readPower? false rest
        | '-' :: rest => readPower? true rest
        | _ => readPower? false rest
      power.map fun (n, rest) => (some n, rest)
    else some (none, cs)
  | [] => some (none, [])

/-- The whole part: digits that do not start with a zero, or one zero. -/
def readWhole? (cs : List Char) : Option (List Char × List Char) := do
  let (digits, rest) ← readDigits? cs
  if digits.head? = some '0' ∧ digits.length ≠ 1 then none else some (digits, rest)

/-- A number token at the start of a text. -/
def readNumberToken? (cs : List Char) : Option (NumberToken × List Char) := do
  let (isNegative, cs) := match cs with
    | '-' :: rest => (true, rest)
    | _ => (false, cs)
  let (whole, cs) ← readWhole? cs
  let (fraction, cs) ← readFraction? cs
  let (exponent, cs) ← readExponent? cs
  return (⟨isNegative, whole, fraction, exponent⟩, cs)

/-- A token without fraction and exponent that fits an integer of 64 bits, signed if it is negative.
Minus zero is no integer. -/
def NumberToken.integer? (t : NumberToken) : Option Int :=
  let n := digitsValue t.whole
  if t.fraction.isSome || t.exponent.isSome then none
  else if t.isNegative then (if 0 < n && n ≤ Word.modulus 63 then some (-n) else none)
  else if n < Word.modulus 64 then some n
  else none

/-- The binary64 number that a token stands for. -/
def NumberToken.float? (t : NumberToken) : Option Float :=
  let (significand, dropped) := gather 0 t.whole
  let fraction := t.fraction.getD []
  let (significand, ignored) := gather significand fraction
  let start : Int := dropped.length - (fraction.length - ignored.length : Nat)
  let magnitude := match t.exponent with
    | some power => scaleBy? significand start power
    | none => scale? significand start
  magnitude.map fun x => if t.isNegative then -x else x

def NumberToken.value (t : NumberToken) : Json :=
  match t.integer? with
  | some n => .integer n
  | none =>
    match t.float? with
    | some x => .float x
    | none => .unreadable

end Retarget.Json
