import Retarget.Failure

/-!
# Bounded arithmetic

Sizes are 64-bit, ids and frame positions 32-bit, immediates and offsets signed 64-bit.  Numbers are
plain `Nat` and `Int`; an operation that may leave its width goes through `fit` or `fitSigned`, and
one that drops high bits goes through `low` or `signed`.
-/

namespace Retarget.Word

/-- The number of words of `bits` bits, two to that power. -/
abbrev modulus (bits : Nat) : Nat := Nat.pow 2 bits

/-- `n`, if it fits `bits` unsigned bits. -/
def fit (bits n : Nat) : Result Nat :=
  if n < modulus bits then .ok n else .error .outOfRange

/-- `i`, if it fits a signed 64-bit word. -/
def fitSigned (i : Int) : Result Int :=
  if -modulus 63 ≤ i ∧ i < modulus 63 then .ok i else .error .outOfRange

/-- The low `bits` bits of a two's-complement number. -/
def low (bits : Nat) (i : Int) : Nat :=
  (i % modulus bits).toNat

/-- The low `bits` bits of a number, read as a signed word. -/
def signed (bits : Nat) (i : Int) : Int :=
  Int.bmod i (modulus bits)

/-- Round up to a multiple of `alignment`; an alignment of zero asks for nothing. -/
def alignTo (value alignment : Nat) : Result Nat :=
  if alignment = 0 then .ok value
  else fit 64 ((value + alignment - 1) / alignment * alignment)

/-- Whether a word fits a signed field of `bits` bits. -/
def fitsSigned (value : Int) (bits : Nat) : Bool :=
  64 ≤ bits || (decide (-modulus (bits - 1) ≤ value) && decide (value < modulus (bits - 1)))

/-- `fitsSigned`, for a field that has at least its sign bit. -/
def isInt (value : Int) (bits : Nat) : Result Bool :=
  if bits = 0 then .error .outOfRange else .ok (fitsSigned value bits)

/-- Whether a word fits an unsigned field of `bits` bits. -/
def isUint (value : Int) (bits : Nat) : Bool :=
  decide (0 ≤ value) && (63 ≤ bits || decide (value < modulus bits))

/-- The additive inverse, unless it does not fit a signed 64-bit word. -/
def negate? (value : Int) : Option Int :=
  if value = -modulus 63 then none else some (-value)

end Retarget.Word
