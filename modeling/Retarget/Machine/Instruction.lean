import Retarget.Failure
import Retarget.Machine.Opcode
import Retarget.Machine.Operand

/-!
# Machine instructions

An opcode over a list of operands.  Unless it is a store, a return, a jump or a call, an instruction
defines its first operand and reads the others.
-/

namespace Retarget.Machine

structure Instruction where
  opcode : Opcode
  operands : List Operand := []
  flags : Flags := {}
  relation : Option Relation := none
deriving DecidableEq

namespace Instruction

/-- An instruction with the flags of its opcode. -/
def make (opcode : Opcode) (operands : List Operand) : Instruction :=
  { opcode := opcode, operands := operands, flags := opcode.flags }

def generic (op : GenericOp) (operands : List Operand) : Instruction :=
  make (.generic op) operands

def native (number : Nat) (operands : List Operand) : Instruction :=
  make (.native number) operands

/-! ## Queries -/

def generic? (i : Instruction) : Option GenericOp := i.opcode.generic?

def isGeneric (i : Instruction) (op : GenericOp) : Bool := i.opcode == .generic op

def isSelected (i : Instruction) : Bool := i.opcode.isSelected

def operand? (i : Instruction) (k : Nat) : Option Operand := i.operands[k]?

def isLoad (i : Instruction) : Bool := i.flags.load

def isStore (i : Instruction) : Bool := i.flags.store

def isReturn (i : Instruction) : Bool := i.flags.ret

def isJump (i : Instruction) : Bool := i.flags.jump

def isCall (i : Instruction) : Bool := i.flags.call

/-- Whether the instruction transfers control, calls or stores, and so defines nothing. -/
def isEffect (i : Instruction) : Bool := i.isStore || i.isReturn || i.isJump || i.isCall

def hasDef (i : Instruction) : Bool := !i.operands.isEmpty && !i.isEffect

/-- The operand that the instruction defines. -/
def def? (i : Instruction) : Option Operand :=
  if i.hasDef then i.operands.head? else none

/-- The operands that the instruction reads. -/
def uses (i : Instruction) : List Operand :=
  if i.hasDef then i.operands.tail else i.operands

/-- The position of the first operand in memory. -/
def memoryIndex? (i : Instruction) : Option Nat :=
  i.operands.findIdx? fun o => o.isMemory || o.isStack

/-- A branch without an explicit false target continues with the next block. -/
def isFallThroughBranch (i : Instruction) : Bool :=
  i.isGeneric .branch && i.operands.length == 2

/-- Whether the first source of a three-address operation or compare is a constant. -/
def hasImmediateFirstSource (i : Instruction) : Bool :=
  (i.generic?.any fun op => op.isThreeAddress || op == .cmp) && (i.operand? 1).any (·.isImmediate)

/-- Whether the source of a width conversion is a constant. -/
def isConstantConversion (i : Instruction) : Bool :=
  i.generic?.any (·.isWidthConversion) && (i.operand? 1).any (·.isImmediate)

/-- The constant in the place of the second source. -/
def secondImmediate? (i : Instruction) : Option Int := (i.operand? 2).bind (·.immediate?)

/-! ## Changes -/

def setOpcode (i : Instruction) (opcode : Opcode) : Instruction := { i with opcode := opcode }

def withRelation (i : Instruction) (relation : Relation) : Instruction :=
  { i with relation := some relation }

def addFlags (i : Instruction) (flags : Flags) : Instruction :=
  { i with flags := i.flags.union flags }

/-- The same instruction, marked as the result of an expansion. -/
def markExpanded (i : Instruction) : Instruction := i.addFlags { expanded := true }

def withOperands (i : Instruction) (operands : List Operand) : Instruction :=
  { i with operands := operands }

def push (i : Instruction) (o : Operand) : Instruction := i.withOperands (i.operands ++ [o])

/-- `o` in place of operand `k`; past the end nothing changes. -/
def replaceOperand (i : Instruction) (k : Nat) (o : Operand) : Instruction :=
  i.withOperands (i.operands.set k o)

/-- Operand `k` changed by `f`; past the end nothing changes. -/
def modifyOperand (i : Instruction) (k : Nat) (f : Operand → Operand) : Instruction :=
  i.withOperands (i.operands.modify k f)

def eraseOperand (i : Instruction) (k : Nat) : Instruction :=
  i.withOperands (i.operands.eraseIdx k)

/-- `o` as operand `k`, before what stood there. -/
def insertOperand (i : Instruction) (k : Nat) (o : Operand) : Result Instruction :=
  if k ≤ i.operands.length then .ok (i.withOperands (i.operands.insertIdx k o))
  else .error .outOfRange

/-- The physical register `reg` in place of the defined operand. -/
def setDefPhysical (i : Instruction) (reg : RegId) : Instruction :=
  if i.hasDef then i.modifyOperand 0 (·.setPhysical reg) else i

/-! ## Text -/

def text (i : Instruction) : String :=
  let relation := match i.relation with
    | some r => s!".{r.text}"
    | none => ""
  let operands := match i.operands with
    | [] => ""
    | os => " " ++ ", ".intercalate (os.map (·.text))
  i.opcode.text ++ relation ++ operands

end Instruction

end Retarget.Machine
