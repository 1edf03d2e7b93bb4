import Retarget.Ir.Ty
import Retarget.Machine.Operand

/-!
# Pieces of memory that fit a register

An aggregate moves between memory and registers in pieces: as many full registers as fit, and then
four, two and one bytes for the rest.
-/

namespace Retarget.Lowering

open Machine (LowType Operand)

/-- The register-level type of a value.  An aggregate is handled through its address. -/
def lowType (pointerBits : Nat) : Ir.Ty → LowType
  | .void => .invalid
  | .int bits _ => .integer bits.toNat
  | .float bits => .float bits.toNat
  | .ptr _ | .array .. | .struct .. => .pointer pointerBits

def pieceSize (registerBytes remaining : Nat) : Nat :=
  ([registerBytes, 4, 2, 1].find? fun n =>
    0 < n && n ≤ remaining && n ≤ registerBytes).getD 1

theorem pieceSize_pos (registerBytes remaining : Nat) : 0 < pieceSize registerBytes remaining := by
  unfold pieceSize
  cases h : [registerBytes, 4, 2, 1].find? fun n =>
      0 < n && n ≤ remaining && n ≤ registerBytes with
  | none => simp
  | some n =>
    have := List.find?_some h
    simp only [Bool.and_eq_true, decide_eq_true_eq] at this
    simpa using this.1.1

def pieceSizes (registerBytes remaining : Nat) : List Nat :=
  if remaining = 0 then []
  else
    let size := pieceSize registerBytes remaining
    size :: pieceSizes registerBytes (remaining - size)
termination_by remaining
decreasing_by
  have := pieceSize_pos registerBytes remaining
  omega

/-- A piece: where it starts, and its register-level type. -/
structure Piece where
  offset : Int
  ty : LowType
deriving DecidableEq

/-- Pieces of the given sizes, one after another from `offset` on. -/
def piecesFrom (offset : Nat) : List Nat → List Piece
  | [] => []
  | size :: rest => ⟨offset, .integer (size * 8)⟩ :: piecesFrom (offset + size) rest

def pieces (registerBytes bytes : Nat) : List Piece :=
  piecesFrom 0 (pieceSizes registerBytes bytes)

/-- A piece of the memory that starts at a location. -/
def Piece.of (p : Piece) (location : Operand) : Operand :=
  match location.kind with
  | .memory base offset => { location with kind := .memory base (offset + p.offset), ty := p.ty }
  | .stack slot offset => { location with kind := .stack slot (offset + p.offset), ty := p.ty }
  | _ => { location with ty := p.ty }

end Retarget.Lowering
