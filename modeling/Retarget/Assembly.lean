import Retarget.Machine.Function
import Retarget.Target.Basic

/-!
# Assembly text

A function is a global symbol followed by its blocks.  The label of a block is local to the file and
carries the index of its function; the entry block has one only if something branches to it.
-/

namespace Retarget.Assembly

open Machine

def localLabel (functionIndex : Nat) (block : String) : String := s!".L{functionIndex}_{block}"

def renderOperand (t : Target) (functionIndex : Nat) (f : Function) (o : Operand) :
    Result String :=
  match o.kind with
  | .physicalReg reg => .ok (t.registers.nameOf reg)
  | .immediate value => .ok (toString value)
  | .label name => .ok (localLabel functionIndex name)
  | .function name | .global name => .ok name
  | _ => .error (.internal s!"operand {o.text} in '{f.name}' survived register allocation")

/-- One more piece of a template after a line written so far, whose characters stand in reverse.  A
symbol takes the place of the mark of a constant before it. -/
def renderPiece (t : Target) (functionIndex : Nat) (f : Function) (template : String)
    (i : Instruction) (line : List Char) : Target.Template.Piece → Result (List Char)
  | .char c => .ok (c :: line)
  | .operand n => do
    let missing := Failure.internal s!"template '{template}' needs ${n} of '{i.text}'"
    let o ← orFail missing (if n = 0 then none else i.operand? (n - 1))
    let line := if o.isFunction || o.isGlobal then
      match line with
      | c :: rest => if c = '#' then rest else line
      | [] => line
      else line
    let text ← renderOperand t functionIndex f o
    return text.toList.reverse ++ line

/-- An instruction in the form of its template. -/
def render (t : Target) (functionIndex : Nat) (f : Function) (i : Instruction) :
    Result String := do
  let template ← orFail (.internal s!"no {t.name} definition for '{i.text}'") (t.template? i)
  let expected := template.operandCount
  let found := i.operands.length
  if found ≠ expected then
    throw (.internal
      s!"'{template.mnemonic}' takes {expected} operands but '{i.text}' in '{f.name}' has {found}")
  let line ← template.pieces.foldlM (renderPiece t functionIndex f template.text i) []
  return String.ofList line.reverse

def mentionsLabel (f : Function) (name : String) : Bool :=
  f.instructions.any fun i => i.operands.any (·.label? == some name)

def emitBlock (t : Target) (functionIndex : Nat) (f : Function) (block : Block) (hasLabel : Bool) :
    Result String := do
  let lines ← block.instructions.mapM (render t functionIndex f)
  let label := if hasLabel then s!"{localLabel functionIndex block.name}:\n" else ""
  return label ++ String.join (lines.map fun line => s!"\t{line}\n")

def emitFunction (t : Target) (functionIndex : Nat) (f : Function) : Result String := do
  let blocks ← f.blocks.zipIdx.mapM fun (block, b) =>
    emitBlock t functionIndex f block (0 < b || mentionsLabel f block.name)
  return s!".globl {f.name}\n{f.name}:\n" ++ String.join blocks

/-- The text of a whole module. -/
def emit (t : Target) (m : Module) : Result String := do
  let functions ← m.functions.zipIdx.mapM fun (f, index) => emitFunction t index f
  let data := if m.globals.isEmpty then ""
    else "\n.section .data\n" ++ String.join (m.globals.map (·.text))
  return "\n".intercalate functions ++ data

end Retarget.Assembly
