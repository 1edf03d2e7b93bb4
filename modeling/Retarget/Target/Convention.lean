import Retarget.Machine.Operand

/-!
# Calling conventions
-/

namespace Retarget.Target

open Machine (RegId)

/-- Which full-width registers a call uses for what. -/
structure Convention where
  /-- The alignment of the stack pointer, in bytes. -/
  stackAlignment : Nat
  /-- The largest aggregate that travels in registers, in bits. -/
  maxAggregateBits : Nat
  arguments : List RegId
  floatArguments : List RegId
  calleeSaved : List RegId
  callerSaved : List RegId
  results : List RegId
  floatResults : List RegId
deriving DecidableEq

def Convention.argumentsOf (c : Convention) (isFloat : Bool) : List RegId :=
  if isFloat then c.floatArguments else c.arguments

def Convention.resultsOf (c : Convention) (isFloat : Bool) : List RegId :=
  if isFloat then c.floatResults else c.results

end Retarget.Target
