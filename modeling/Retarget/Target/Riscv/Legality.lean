import Retarget.Target.Expansion
import Retarget.Target.Riscv.Registers

/-!
# RV32 legality

Constants fit a signed 12-bit field, compares are less-than, signed or unsigned, and there is no
floating point and no value wider than a register.
-/

namespace Retarget.Target.Riscv

open Machine

/-- Whether a register or constant is wider than a register of the target. -/
def isTooWide (i : Instruction) : Bool :=
  i.operands.any fun o => (o.isRegLike || o.isImmediate) && 32 < o.size

def isLegal (f : Function) (b i : Nat) : Bool :=
  match f.instruction? b i with
  | none => true
  | some instr =>
    match instr.generic? with
    | none => true
    | some op =>
      let second := instr.secondImmediate?
      if op.isFloat || isTooWide instr || instr.hasImmediateFirstSource
          || instr.isConstantConversion then false
      else match op with
        | .store => !instr.operands.any (·.isImmediate)
        | .mul | .div | .divu | .mod | .modu => second.isNone
        | .sub => second.all fun imm => (Word.negate? imm).any (Word.fitsSigned · 12)
        | .add | .and | .or | .xor => second.all (Word.fitsSigned · 12)
        | .lsl | .lsr => second.all fun imm => decide (0 ≤ imm) && decide (imm < 32)
        | .cmp =>
          (instr.relation == some .lt || instr.relation == some .ltu) &&
            second.all (Word.fitsSigned · 12)
        | _ => true

def isExpandable (instr : Instruction) : Bool :=
  match instr.generic? with
  | none => false
  | some op =>
    if op.isFloat || isTooWide instr then false
    else instr.hasImmediateFirstSource || instr.isConstantConversion ||
      match op with
      | .store | .mul | .div | .divu | .mod | .modu | .sub | .add | .and | .or | .xor
      | .lsl | .lsr | .cmp => true
      | _ => false

/-- A compare that an expansion produces. -/
def compare (relation : Relation) (d a b : Operand) : Instruction :=
  ((Instruction.generic .cmp [d, a, b]).withRelation relation).markExpanded

/-- An exclusive or that an expansion produces. -/
def exclusiveOr (d a b : Operand) : Instruction :=
  (Instruction.generic .xor [d, a, b]).markExpanded

/-- Reduces a compare to less-than: `a > b` is `b < a`, `a ≤ b` is `b ≥ a`, `a ≥ b` is the
negation of `a < b`, `a = b` is `(a ^ b) <u 1`, and `a ≠ b` is `0 <u (a ^ b)`. -/
def expandCompare (f : Function) (b i : Nat) (instr : Instruction) : Result Function :=
  match instr.relation, instr.operands with
  | some relation, [dest, lhs, rhs] =>
    match relation with
    | .gt | .le => .ok (f.replaceAt b i [compare relation.swapped dest rhs lhs])
    | .ge => do
      let (id, f) ← f.fresh
      let temp := Operand.virtualReg id dest.ty
      return f.replaceAt b i
        [compare .lt temp lhs rhs, exclusiveOr dest temp (.immediate 1 dest.ty)]
    | .eq => do
      let (id, f) ← f.fresh
      let temp := Operand.virtualReg id lhs.ty
      return f.replaceAt b i
        [exclusiveOr temp lhs rhs, compare .ltu dest temp (.immediate 1 lhs.ty)]
    | .ne => do
      let (id, f) ← f.fresh
      let temp := Operand.virtualReg id lhs.ty
      return f.replaceAt b i
        [exclusiveOr temp lhs rhs, compare .ltu dest (.physicalReg zero lhs.ty) temp]
    | .lt | .ltu => materialize f b i 2
  | _, _ => .error (.internal s!"malformed compare '{instr.text}'")

def expand (f : Function) (b i : Nat) : Result Function := do
  let instr ← orFail (.internal "expanding a missing instruction") (f.instruction? b i)
  if instr.hasImmediateFirstSource then materialize f b i 1
  else if instr.isConstantConversion then expandConstantConversion f b i
  else match instr.generic? with
    | some .store => expandStoreImmediate f b i
    | some .cmp => expandCompare f b i instr
    | some _ => materialize f b i 2
    | none => throw (.internal s!"expanding selected instruction '{instr.text}'")

end Retarget.Target.Riscv
