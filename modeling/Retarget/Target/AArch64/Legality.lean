import Retarget.Target.AArch64.LogicalImmediate
import Retarget.Target.AArch64.Op
import Retarget.Target.Expansion

/-!
# AArch64 legality

Arithmetic constants fit an unsigned 12-bit field, bitwise ones are logical immediates, and there is
neither a remainder instruction nor a constant form of multiplication and division.
-/

namespace Retarget.Target.AArch64

open Machine

/-- Whether the instruction is a zero extension of what the load right before it defines, and
nothing else mentions the loaded register. -/
def isFoldableZext (f : Function) (b i : Nat) : Bool :=
  match f.instruction? b i, (if i = 0 then none else f.instruction? b (i - 1)) with
  | some zext, some prev =>
    prev.isGeneric .load &&
      match prev.def?.bind (·.unallocated?), zext.operand? 1 with
      | some loaded, some source =>
        source.isVirtual && source.reg? == some loaded &&
          (f.instructions.flatMap (·.operands)).countP (·.unallocated? == some loaded) == 2
      | _, _ => false
  | _, _ => false

/-- The width that decides how a bitwise or shift constant is encoded. -/
def destWidth (i : Instruction) : Nat :=
  match i.operand? 0 with
  | some o => o.size
  | none => 32

def isLegal (f : Function) (b i : Nat) : Bool :=
  match f.instruction? b i with
  | none => true
  | some instr =>
    match instr.generic? with
    | none => true
    | some op =>
      let second := instr.secondImmediate?
      if instr.hasImmediateFirstSource || instr.isConstantConversion then false
      else match op with
        | .mod | .modu | .globalAddress => false
        | .store => !instr.operands.any (·.isImmediate)
        | .mul | .div | .divu => second.isNone
        | .add | .sub | .cmp => second.all (Word.isUint · 12)
        | .and | .or | .xor => second.all (isLogicalImmediate · (destWidth instr))
        | .lsl | .lsr =>
          second.all fun imm : Int =>
            decide (0 ≤ imm) && decide (imm.toNat < max (destWidth instr) 32)
        | .zext => !isFoldableZext f b i
        | _ => true

def isExpandable (instr : Instruction) : Bool :=
  instr.hasImmediateFirstSource || instr.isConstantConversion ||
    match instr.generic? with
    | some .mod | some .modu | some .globalAddress | some .store | some .mul | some .div
    | some .divu | some .add | some .sub | some .cmp | some .and | some .or | some .xor
    | some .lsl | some .lsr | some .zext => true
    | _ => false

/-- `GLOBAL_ADDRESS d, sym` becomes `adrp d, sym; ADD d, d, :lo12:sym`. -/
def expandGlobalAddress (f : Function) (b i : Nat) (instr : Instruction) : Result Function :=
  match instr.operands with
  | dest :: source :: _ =>
    match source.symbol? with
    | some symbol =>
      .ok (f.replaceAt b i
        [(Op.adrp.on [dest, .global symbol source.ty]).markExpanded,
          (Instruction.generic .add
            [dest, dest, .global (":lo12:" ++ symbol) source.ty]).markExpanded])
    | none => .error (.internal s!"malformed global address '{instr.text}'")
  | _ => .error (.internal s!"malformed global address '{instr.text}'")

/-- The load right before a zero extension loads the extended value itself.  The width in memory
travels as an immediate in operand 1. -/
def foldZextIntoLoad (f : Function) (b i : Nat) (zext : Instruction) : Result Function :=
  if i = 0 then .error (.internal "zero extension without a preceding load")
  else match f.instruction? b (i - 1) with
    | none => .error .outOfRange
    | some load =>
      match zext.operands, load.operands with
      | dest :: _, loaded :: rest =>
        let width := Operand.immediate loaded.size loaded.ty
        let folded := (load.setOpcode (.generic .zextLoad)).withOperands (dest :: width :: rest)
        .ok (f.modifyBlock b fun block => block.splice (i - 1) 2 [folded.markExpanded])
      | _, _ => .error (.internal s!"malformed extension '{zext.text}'")

/-- `ADD x, -c` is `SUB x, c` and the other way round, where the constant then fits. -/
def expandAddSub (f : Function) (b i : Nat) (instr : Instruction) (flipped : GenericOp) :
    Result Function :=
  match (instr.secondImmediate?.bind Word.negate?).filter (Word.isUint · 12) with
  | some negated =>
    .ok (f.replaceAt b i
      [(instr.setOpcode (.generic flipped)).modifyOperand 2 (·.setImmediate negated)])
  | none => materialize f b i 2

def expand (f : Function) (b i : Nat) : Result Function := do
  let instr ← orFail (.internal "expanding a missing instruction") (f.instruction? b i)
  if instr.hasImmediateFirstSource then materialize f b i 1
  else if instr.isConstantConversion then expandConstantConversion f b i
  else match instr.generic? with
    | none => throw (.internal s!"expanding selected instruction '{instr.text}'")
    | some .mod | some .modu => expandRemainder f b i
    | some .store => expandStoreImmediate f b i
    | some .globalAddress => expandGlobalAddress f b i instr
    | some .zext => foldZextIntoLoad f b i instr
    | some .add => expandAddSub f b i instr .sub
    | some .sub => expandAddSub f b i instr .add
    | some _ => materialize f b i 2

end Retarget.Target.AArch64
