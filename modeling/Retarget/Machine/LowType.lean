/-!
# Register-level types

A machine operand knows what kind of bits it holds and how many; aggregates are handled through
their address and have no type of their own here.
-/

namespace Retarget.Machine

/-- What the bits of an operand mean. -/
inductive LowType.Kind where
  | invalid
  | pointer
  | integer
  | float
deriving DecidableEq

/-- A kind and a width in bits. -/
structure LowType where
  kind : LowType.Kind
  bits : Nat
deriving DecidableEq

namespace LowType

/-- The type of labels and function names, which hold no bits. -/
def invalid : LowType := ⟨.invalid, 0⟩

def pointer (bits : Nat) : LowType := ⟨.pointer, bits⟩

def integer (bits : Nat) : LowType := ⟨.integer, bits⟩

def float (bits : Nat) : LowType := ⟨.float, bits⟩

/-- Bytes that hold the bits. -/
def byteSize (t : LowType) : Nat := (t.bits + 7) / 8

def isValid (t : LowType) : Bool := t.kind != .invalid

def isPointer (t : LowType) : Bool := t.kind == .pointer

def isInteger (t : LowType) : Bool := t.kind == .integer

def isFloat (t : LowType) : Bool := t.kind == .float

/-- `i32`, `p64`, `f64`, or `invalid` without a width. -/
def text (t : LowType) : String :=
  match t.kind with
  | .invalid => "invalid"
  | .pointer => s!"p{t.bits}"
  | .integer => s!"i{t.bits}"
  | .float => s!"f{t.bits}"

end LowType

end Retarget.Machine
