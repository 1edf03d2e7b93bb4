import Retarget.Target.Basic

/-!
# Legalization

Every instruction is checked against the rules of the target.  An illegal one is expanded, and the
same position is checked again until it passes, so what an expansion inserts is legalized too.
-/

namespace Retarget.Machine.Function

/-- How often one position is expanded before legalization gives up. -/
def maxExpansions : Nat := 32

def illegal (f : Function) (instr : Instruction) : Failure :=
  .illegalInstruction f.name instr.text

/-- Expands the instruction at `(b, i)` until it is legal, at most `rounds` times. -/
def settle (t : Target) (b i : Nat) : Nat → Function → Result Function
  | rounds, f =>
    if t.isLegal f b i then .ok f
    else match f.instruction? b i with
      | none => .ok f
      | some instr =>
        match rounds with
        | 0 => .error (f.illegal instr)
        | rounds + 1 =>
          if t.isExpandable instr then do
            let f ← t.expand f b i
            settle t b i rounds f
          else .error (f.illegal instr)

/-- Settles the positions of block `b` from `i` on, of which there may be at most `budget`. -/
def legalizeFrom (t : Target) (b : Nat) : Nat → Nat → Function → Result Function
  | 0, i, f =>
    match f.instruction? b i with
    | none => .ok f
    | some instr => .error (f.illegal instr)
  | budget + 1, i, f =>
    if i < f.blockLength b then do
      let f ← settle t b i maxExpansions f
      legalizeFrom t b budget (i + 1) f
    else .ok f

/-- More instructions than a block can turn into: one expands to at most six, and a store to one for
each of its constants and itself. -/
def expansionBudget (f : Function) (b : Nat) : Nat :=
  match f.blocks[b]? with
  | none => 0
  | some block => block.instructions.foldr (fun i total => 8 + i.operands.length + total) 0

/-- The function with every instruction in a form that the target can select. -/
def legalize (t : Target) (f : Function) : Result Function :=
  (List.range f.blocks.length).foldlM
    (fun f b => legalizeFrom t b (f.expansionBudget b) 0 f) f

end Retarget.Machine.Function
