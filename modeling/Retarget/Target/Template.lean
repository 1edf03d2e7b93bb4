import Retarget.Machine.Opcode
import Retarget.Text.Character
import Retarget.Word

/-!
# Instruction templates

A selected instruction is printed through the template of its opcode, in which `$N` stands for the
`N`-th operand, counted from one.
-/

namespace Retarget.Target

open Machine (Flags)

/-- A part of a template: a character of the text, or the place of an operand. -/
inductive Template.Piece where
  | char (c : Char)
  | operand (n : Nat)
deriving DecidableEq

structure Template where
  /-- The number of the opcode that the template belongs to. -/
  opcode : Nat
  text : String
  flags : Flags := {}
deriving DecidableEq

namespace Template

/-- The number that decimal digits write; no digits, or a number past 64 bits, write none. -/
def number? (digits : List Char) : Option Nat :=
  if digits.isEmpty then none
  else
    let n := digits.foldl (fun n c => 10 * n + (c.toNat - 48)) 0
    if n < Word.modulus 64 then some n else none

/-- The pieces of a text, after its first `skip` characters. -/
def piecesFrom : Nat → List Char → List Piece
  | _, [] => []
  | skip + 1, _ :: rest => piecesFrom skip rest
  | 0, c :: rest =>
    let digits := rest.takeWhile Char.isDigit
    match if c = '$' then number? digits else none with
    | some n => .operand n :: piecesFrom digits.length rest
    | none => .char c :: piecesFrom 0 rest

def pieces (t : Template) : List Piece := piecesFrom 0 t.text.toList

/-- The word that names the instruction. -/
def mnemonic (t : Template) : String :=
  String.ofList (t.text.toList.takeWhile fun c => !Text.isBlank c)

/-- How many operands an instruction has to bring. -/
def operandCount (t : Template) : Nat :=
  t.pieces.foldl (fun most p => match p with
    | .operand n => max most n
    | .char _ => most) 0

/-- The template of an opcode in a table indexed by opcode number. -/
def find? (table : List Template) (opcode : Nat) : Option Template :=
  table[opcode]?.filter fun t => t.opcode == opcode

end Template

end Retarget.Target
