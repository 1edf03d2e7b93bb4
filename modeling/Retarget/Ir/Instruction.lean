import Retarget.Ir.Value

/-!
# Instructions of the intermediate representation
-/

namespace Retarget.Ir

/-- Operations on two values of one type.  Shifts are logical. -/
inductive BinaryOp where
  | add | sub | mul
  | div | divu | mod | modu
  | and | or | xor | shl | shr
  | fadd | fsub | fmul | fdiv
deriving DecidableEq

namespace BinaryOp

def isFloat : BinaryOp → Bool
  | fadd | fsub | fmul | fdiv => true
  | _ => false

def text : BinaryOp → String
  | add => "add"
  | sub => "sub"
  | mul => "mul"
  | div => "div"
  | divu => "divu"
  | mod => "mod"
  | modu => "modu"
  | and => "and"
  | or => "or"
  | xor => "xor"
  | shl => "lsl"
  | shr => "lsr"
  | fadd => "addf"
  | fsub => "subf"
  | fmul => "mulf"
  | fdiv => "divf"

end BinaryOp

/-- Conversions. -/
inductive UnaryOp where
  | sext | zext | trunc | ftoi | itof
  /-- The same bits at another type. -/
  | bitcast
deriving DecidableEq

def UnaryOp.text : UnaryOp → String
  | .sext => "sext"
  | .zext => "zext"
  | .trunc => "trunc"
  | .ftoi => "ftoi"
  | .itof => "itof"
  | .bitcast => "bitcast"

/-- The relations that a compare can test. -/
inductive Relation where
  | eq | ne | lt | gt | le | ge
deriving DecidableEq

def Relation.text : Relation → String
  | .eq => "eq"
  | .ne => "ne"
  | .lt => "lt"
  | .gt => "gt"
  | .le => "le"
  | .ge => "ge"

inductive Instruction where
  | binary (result : TempId) (op : BinaryOp) (lhs rhs : Value) (ty : Ty)
  | unary (result : TempId) (op : UnaryOp) (operand : Value) (ty : Ty)
  /-- The result has one bit. -/
  | compare (result : TempId) (relation : Relation) (lhs rhs : Value)
  /-- A named local; the result is its address. -/
  | stackAlloc (result : TempId) (name : String) (ty : Ty)
  | load (result : TempId) (ptr : Value) (ty : Ty)
  | store (value ptr : Value)
  /-- An address: of a member, for a struct, and of an element otherwise. -/
  | elementPtr (result : TempId) (source index : Value) (ty : Ty)
  | memCopy (dest source : Value) (bytes : UInt64)
  /-- A call; `returnBuffer` is the position of the argument that holds the address of the caller's
  buffer for a large result. -/
  | call (result : Option TempId) (callee : String) (args : List Value) (ty : Ty)
    (returnBuffer : Option UInt64)
  | jump (target : String)
  /-- Without a false target, the branch continues with the next block. -/
  | branch (condition : Value) (trueTarget : String) (falseTarget : Option String)
  | ret (value : Option Value)
deriving BEq

namespace Instruction

def result? : Instruction → Option TempId
  | binary result .. | unary result .. | compare result .. | stackAlloc result ..
  | load result .. | elementPtr result .. => some result
  | call result .. => result
  | _ => none

def isTerminator : Instruction → Bool
  | jump _ | branch .. | ret _ => true
  | _ => false

def text : Instruction → String
  | binary result op lhs rhs ty =>
    s!"%{result.toNat} = {op.text} {ty.text} {lhs.text}, {rhs.text}"
  | unary result op operand ty => s!"%{result.toNat} = {op.text} {operand.text} to {ty.text}"
  | compare result relation lhs rhs =>
    s!"%{result.toNat} = cmp {relation.text} {lhs.text}, {rhs.text}"
  | stackAlloc result name ty => s!"%{result.toNat} = alloca {ty.text} ; {name}"
  | load result ptr ty => s!"%{result.toNat} = load {ty.text}, {ptr.text}"
  | store value ptr => s!"store {value.text}, {ptr.text}"
  | elementPtr result source index ty =>
    s!"%{result.toNat} = getelementptr {ty.text}, {source.text}, {index.text}"
  | memCopy dest source bytes => s!"memcopy {dest.text}, {source.text}, {bytes.toNat}"
  | call result callee args ty _ =>
    let target := match result with
      | some id => s!"%{id.toNat} = "
      | none => ""
    s!"{target}call {ty.text} @{callee}(" ++ ", ".intercalate (args.map (·.text)) ++ ")"
  | jump target => s!"jump <{target}>"
  | branch condition trueTarget falseTarget =>
    let otherwise := match falseTarget with
      | some target => s!", <{target}>"
      | none => ""
    s!"br {condition.text}, <{trueTarget}>{otherwise}"
  | ret (some value) => s!"ret {value.text}"
  | ret none => "ret void"

end Instruction

end Retarget.Ir
