/-!
# Failures

Every stage of the code generator answers a value or one `Failure`, and the first failure ends the
compilation of the whole module.  The wording of a failure is decided here and nowhere else.
-/

namespace Retarget

/-- Why a stage gave up. -/
inductive Failure where
  /-- The program has a shape that lowering does not handle. -/
  | unsupported (detail : String)
  /-- An instruction has no legal form on the target. -/
  | illegalInstruction (function instruction : String)
  /-- No register of the class is free, neither caller-saved nor callee-saved. -/
  | registersExhausted (function regClass : String)
  /-- A frame has to be released before a return, and there is no return. -/
  | missingReturn (function : String)
  | unknownTarget (name : String)
  /-- A stage met code that the stages before it do not produce. -/
  | internal (detail : String)
  /-- A number left its width, or a position its list. -/
  | outOfRange
  /-- A stage follows something that goes round in a circle, so it gives no answer at all. -/
  | endless
deriving DecidableEq

/-- The answer of a stage. -/
abbrev Result := Except Failure

namespace Failure

def message : Failure → String
  | unsupported detail => s!"Unsupported IR: {detail}"
  | illegalInstruction function instruction =>
    s!"Illegal instruction in '{function}': {instruction}"
  | registersExhausted function regClass =>
    s!"Register pools exhausted in '{function}' while allocating class {regClass}"
  | missingReturn function => s!"No return instruction found in '{function}'"
  | unknownTarget name => s!"Unknown target architecture: {name}"
  | internal detail => s!"Internal compiler error: {detail}"
  | outOfRange => "number out of range"
  | endless => "no end"

end Failure

/-- The value of an optional, or the failure that its absence means. -/
def orFail {α : Type} (failure : Failure) : Option α → Result α
  | some a => .ok a
  | none => .error failure

end Retarget
