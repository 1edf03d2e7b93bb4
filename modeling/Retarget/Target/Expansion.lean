import Retarget.Machine.Function

/-!
# Expansions

Steps towards legal code that targets share.  Each replaces one instruction by a short
sequence with the same effect; new values live in fresh virtual registers.
-/

namespace Retarget.Target

open Machine

/-- `LOAD_IMM dest, imm`, marked as the result of an expansion. -/
def loadImmediate (dest imm : Operand) : Instruction :=
  (Instruction.generic .loadImm [dest, imm]).markExpanded

/-- Moves the immediate in operand `k` into a fresh register that is loaded right before. -/
def materialize (f : Function) (b i k : Nat) : Result Function := do
  let instr ← f.instructionAt b i
  let imm ← orFail (.internal s!"operand {k} is not an immediate")
    ((instr.operand? k).filter (·.isImmediate))
  let (id, f) ← f.fresh
  let temp := Operand.virtualReg id imm.ty
  return f.replaceAt b i [loadImmediate temp imm, instr.replaceOperand k temp]

/-- `MOD d, a, b` becomes `DIV q, a, b; MUL p, q, b; SUB d, a, p`. -/
def expandRemainder (f : Function) (b i : Nat) : Result Function := do
  let instr ← f.instructionAt b i
  let division ← match instr.generic? with
    | some .mod => pure GenericOp.div
    | some .modu => pure GenericOp.divu
    | _ => throw (.internal s!"expand_mod on '{instr.text}'")
  match instr.operands with
  | [dest, lhs, rhs] =>
    let (quotient, f) ← f.fresh
    let (product, f) ← f.fresh
    let q := Operand.virtualReg quotient dest.ty
    let p := Operand.virtualReg product dest.ty
    return f.replaceAt b i
      [(Instruction.generic division [q, lhs, rhs]).markExpanded,
        (Instruction.generic .mul [p, q, rhs]).markExpanded,
        (Instruction.generic .sub [dest, lhs, p]).markExpanded]
  | _ => throw (.internal s!"malformed remainder '{instr.text}'")

/-- `STORE m, imm` becomes `LOAD_IMM t, imm; STORE m, t`. -/
def expandStoreImmediate (f : Function) (b i : Nat) : Result Function := do
  let instr ← f.instructionAt b i
  let k ← orFail (.internal s!"store without immediate '{instr.text}'")
    (instr.operands.findIdx? (·.isImmediate))
  materialize f b i k

/-- The low `bits` bits of a word.  The mask for 63 bits has no representation. -/
def maskTo (bits : Nat) (value : Int) : Result Int :=
  if 64 ≤ bits then .ok value
  else if bits = 63 then .error .outOfRange
  else .ok (Word.low bits value)

/-- The value of a width conversion of a constant from `source` to `dest` bits. -/
def foldConversion (op : GenericOp) (value : Int) (source dest : Nat) : Result Int :=
  match op with
  | .sext => .ok (if source < 64 then Word.signed source (Word.low source value) else value)
  | .zext => maskTo source value
  | .trunc => maskTo dest value
  | _ => .ok value

/-- `SEXT d, imm` and its like become `LOAD_IMM d, value`. -/
def expandConstantConversion (f : Function) (b i : Nat) : Result Function := do
  let instr ← f.instructionAt b i
  match instr.generic?, instr.operands with
  | some op, [dest, source] =>
    let value ← orFail (.internal s!"conversion of a non-constant '{instr.text}'")
      source.immediate?
    let folded ← foldConversion op value source.size dest.size
    return f.replaceAt b i [loadImmediate dest (.immediate folded dest.ty)]
  | _, _ => throw (.internal s!"malformed conversion '{instr.text}'")

end Retarget.Target
