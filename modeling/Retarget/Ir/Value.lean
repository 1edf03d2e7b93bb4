import Retarget.Decimal.Layout
import Retarget.Ir.Ty

/-!
# Values of the intermediate representation

Every value carries its own type, so its width is known without its definition.
-/

namespace Retarget.Ir

/-- The number of a temporary, which an instruction defines. -/
abbrev TempId := UInt32

inductive Value where
  | temp (id : TempId) (ty : Ty)
  | param (name : String) (ty : Ty)
  | constant (value : Int64) (ty : Ty)
  | floatConstant (value : Float) (ty : Ty)
  /-- The address of a global; the type is that of the global itself. -/
  | global (name : String) (ty : Ty)
deriving BEq

namespace Value

def ty : Value → Ty
  | temp _ ty | param _ ty | constant _ ty | floatConstant _ ty | global _ ty => ty

def int (value : Int64) : Value := .constant value .i32

def tempId? : Value → Option TempId
  | temp id _ => some id
  | _ => none

def isConstant : Value → Bool
  | constant .. | floatConstant .. => true
  | _ => false

def isGlobal : Value → Bool
  | global .. => true
  | _ => false

/-- Constants keep `.0`, and have an exponent outside of `1e-4 ≤ |x| < 1e16`. -/
def floatLayout : Decimal.Layout where
  positional exponent := -4 ≤ exponent && exponent < 16
  keepsPoint := true
  signsExponent := false
  tie := .up
  infinity := "inf"
  notNumber := "NaN"

def text : Value → String
  | temp id ty => s!"%{id.toNat}<{ty.text}>"
  | param name ty => s!"${name}<{ty.text}>"
  | constant value _ => toString value.toInt
  | floatConstant value _ => floatLayout.text value
  | global name _ => s!"@{name}"

end Value

end Retarget.Ir
