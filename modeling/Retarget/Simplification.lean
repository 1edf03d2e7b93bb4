import Retarget.Machine.Function

/-!
# Simplification

Within a block, a load from a frame slot whose value is still in a register is replaced by that
register, and a pure operation that repeats an earlier one reuses the earlier result.  Definitions
that nobody reads are dropped afterwards.  Only registers with a single definition in the whole
function are renamed or reused, and a call forgets everything known.
-/

namespace Retarget.Machine

/-! ## Renaming -/

/-- A register that a value can be read from. -/
inductive Source where
  | virtualReg (id : RegId)
  | parameter (id : RegId)
deriving DecidableEq

namespace Source

def of? (o : Operand) : Option Source :=
  match o.kind with
  | .virtualReg id => some (.virtualReg id)
  | .parameter id => some (.parameter id)
  | _ => none

def id : Source → RegId
  | virtualReg id | parameter id => id

def kind : Source → Operand.Kind
  | virtualReg id => .virtualReg id
  | parameter id => .parameter id

end Source

/-- Where the values of registers are found whose definitions were dropped. -/
structure Renames where
  entries : List (RegId × Source) := []

namespace Renames

def insert (rs : Renames) (reg : RegId) (source : Source) : Renames :=
  ⟨(reg, source) :: rs.entries⟩

/-- The source after one renaming, if it is renamed. -/
def next? (rs : Renames) : Source → Option Source
  | .virtualReg id => rs.entries.lookup id
  | .parameter _ => none

/-- The source after at most `steps` renamings. -/
def follow (rs : Renames) : Nat → Source → Source
  | steps + 1, .virtualReg id =>
    match rs.entries.lookup id with
    | some next => follow rs steps next
    | none => .virtualReg id
  | _, source => source

/-- The source at the end of a chain of renamings, which is no longer than there are renamings. -/
def resolve (rs : Renames) (source : Source) : Source := rs.follow rs.entries.length source

/-- Whether no chain of renamings goes round in a circle. -/
def isAcyclic (rs : Renames) : Bool :=
  rs.entries.all fun entry => (rs.next? (rs.resolve (.virtualReg entry.1))).isNone

def applyOperand (rs : Renames) (o : Operand) : Operand :=
  match o.kind with
  | .virtualReg reg => o.withKind (rs.resolve (.virtualReg reg)).kind
  | .memory base _ => o.setReg (rs.resolve (.virtualReg base)).id
  | _ => o

def apply (rs : Renames) (i : Instruction) : Instruction :=
  i.withOperands (i.operands.map rs.applyOperand)

end Renames

/-! ## What is known inside a block -/

/-- The virtual registers that the function defines, one entry for each definition. -/
def Function.definitions (f : Function) : List RegId :=
  f.instructions.filterMap fun i => (i.def?.filter (·.isVirtual)).bind (·.reg?)

/-- The virtual register that the instruction defines, if nothing else defines it. -/
def Instruction.singleDefinition? (i : Instruction) (defs : List RegId) : Option RegId :=
  ((i.def?.filter (·.isVirtual)).bind (·.reg?)).filter fun reg => defs.count reg == 1

/-- Whether the operand keeps its value for the rest of the function. -/
def Operand.isStable (o : Operand) (defs : List RegId) : Bool :=
  match o.kind with
  | .virtualReg reg => defs.count reg == 1
  | .physicalReg _ | .memory _ _ => false
  | _ => true

/-- A computation, up to the register that receives it. -/
structure Expression where
  opcode : Opcode
  relation : Option Relation
  ty : LowType
  uses : List Operand
deriving DecidableEq

/-- The values known to be in registers: of bytes in the frame, and of expressions. -/
structure Known where
  slots : List ((Slot × Int) × Operand) := []
  expressions : List (Expression × Source) := []

namespace Known

/-- The expression that a pure instruction computes, with the register it defines. -/
def expression? (defs : List RegId) (i : Instruction) : Option (RegId × Expression) := do
  guard (i.generic?.any (·.isPure))
  let dest ← i.singleDefinition? defs
  let d ← i.def?
  guard (i.uses.all (·.isStable defs))
  return (dest, ⟨i.opcode, i.relation, d.ty, i.uses⟩)

/-- The register that a load defines, and the one that holds the loaded value already. -/
def loaded? (k : Known) (defs : List RegId) (i : Instruction) : Option (RegId × Source) := do
  let dest ← i.singleDefinition? defs
  let place ← (i.operand? 1).bind (·.frameByte?)
  let value ← k.slots.lookup place
  guard ((i.operand? 0).map (·.ty) == some value.ty)
  let source ← Source.of? value
  return (dest, source)

/-- The register that an instruction defines, and the one that holds the same value already. -/
def redundant? (k : Known) (defs : List RegId) (i : Instruction) : Option (RegId × Source) :=
  if i.isCall || i.isStore then none
  else if i.isGeneric .load then k.loaded? defs i
  else do
    let (dest, expression) ← expression? defs i
    let earlier ← k.expressions.lookup expression
    return (dest, earlier)

/-- What is known after a store.  One that does not go to a known frame byte may hit any slot. -/
def afterStore (k : Known) (defs : List RegId) (i : Instruction) : Known :=
  match (i.operand? 0).bind (·.frameByte?), i.operand? 1 with
  | some (slot, offset), some value =>
    let others := k.slots.filter fun entry => entry.1.1 != slot
    if (Source.of? value).isSome && value.isStable defs then
      { k with slots := ((slot, offset), value) :: others }
    else { k with slots := others }
  | _, _ => { k with slots := [] }

/-- What is known after an instruction that stays. -/
def after (k : Known) (defs : List RegId) (i : Instruction) : Known :=
  if i.isCall then {}
  else if i.isStore then k.afterStore defs i
  else match expression? defs i with
    | some (dest, expression) =>
      { k with expressions := (expression, .virtualReg dest) :: k.expressions }
    | none => k

end Known

/-- The instructions of a block without the redundant ones, and the renamings that this takes. -/
def simplifyFrom (defs : List RegId) :
    Known → Renames → List Instruction → Renames × List Instruction
  | _, rs, [] => (rs, [])
  | k, rs, i :: rest =>
    let i := rs.apply i
    match k.redundant? defs i with
    | some (dest, source) => simplifyFrom defs k (rs.insert dest source) rest
    | none =>
      let (rs, rest) := simplifyFrom defs (k.after defs i) rs rest
      (rs, i :: rest)

namespace Function

def renames (f : Function) : Renames :=
  f.blocks.foldl (fun rs b => (simplifyFrom f.definitions {} rs b.instructions).1) {}

def simplify (f : Function) : Function :=
  let defs := f.definitions
  let (rs, blocks) := mapAccum (fun rs (b : Block) =>
    let (rs, instructions) := simplifyFrom defs {} rs b.instructions
    (rs, { b with instructions := instructions })) {} f.blocks
  ({ f with blocks := blocks } : Function).mapInstructions rs.apply

/-! ## Dead definitions -/

/-- The ids that the function reads.  The base of a memory operand is read wherever it stands. -/
def reads (f : Function) : List RegId :=
  f.instructions.flatMap fun i =>
    let read := if i.hasDef && (i.operand? 0).any (!·.isMemory) then i.operands.tail
      else i.operands
    read.filterMap (·.unallocated?)

/-- Whether the instruction only defines a virtual register that is not read. -/
def isDead (reads : List RegId) (i : Instruction) : Bool :=
  !i.isSelected && !i.isEffect &&
    (((i.def?.filter (·.isVirtual)).bind (·.reg?)).any fun reg => !reads.contains reg)

/-- The function without the definitions that are not read. -/
def sweep (f : Function) : Function :=
  let reads := f.reads
  { f with blocks := f.blocks.map fun b =>
      { b with instructions := b.instructions.filter fun i => !isDead reads i } }

/-- Sweeps until nothing is dropped any more. -/
def dropDead (f : Function) : Function :=
  if f.sweep.instructions.length < f.instructions.length then f.sweep.dropDead else f
termination_by f.instructions.length

/-- The function with less to do and the same effects. -/
def optimize (f : Function) : Function := f.simplify.dropDead

/-- What optimizing the function leads to: where a chain of renamings goes round in a circle, it is
followed without end. -/
def optimized (f : Function) : Result Function :=
  if f.renames.isAcyclic then .ok f.optimize else .error .endless

end Function

end Retarget.Machine
