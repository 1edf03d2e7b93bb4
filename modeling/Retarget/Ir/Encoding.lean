import Retarget.Ir.Module
import Retarget.Json.Fields
import Retarget.Json.Printer

/-!
# Modules as JSON

Every record is an object with its fields in a fixed order, every alternative an object with one
member, named for it.
-/

namespace Retarget.Ir

open Json (tagged)

/-! ## Names -/

def BinaryOp.all : List BinaryOp :=
  [.add, .sub, .mul, .div, .divu, .mod, .modu, .and, .or, .xor, .shl, .shr, .fadd, .fsub, .fmul,
    .fdiv]

def BinaryOp.name : BinaryOp → String
  | .add => "Add"
  | .sub => "Sub"
  | .mul => "Mul"
  | .div => "Div"
  | .divu => "DivU"
  | .mod => "Mod"
  | .modu => "ModU"
  | .and => "And"
  | .or => "Or"
  | .xor => "Xor"
  | .shl => "Shl"
  | .shr => "Shr"
  | .fadd => "FAdd"
  | .fsub => "FSub"
  | .fmul => "FMul"
  | .fdiv => "FDiv"

def BinaryOp.ofName? (name : String) : Option BinaryOp :=
  BinaryOp.all.find? (·.name == name)

def UnaryOp.all : List UnaryOp := [.sext, .zext, .trunc, .ftoi, .itof, .bitcast]

def UnaryOp.name : UnaryOp → String
  | .sext => "SExt"
  | .zext => "ZExt"
  | .trunc => "Trunc"
  | .ftoi => "FToI"
  | .itof => "IToF"
  | .bitcast => "BitCast"

def UnaryOp.ofName? (name : String) : Option UnaryOp :=
  UnaryOp.all.find? (·.name == name)

def Relation.all : List Relation := [.eq, .ne, .lt, .gt, .le, .ge]

def Relation.name : Relation → String
  | .eq => "Eq"
  | .ne => "Ne"
  | .lt => "Lt"
  | .gt => "Gt"
  | .le => "Le"
  | .ge => "Ge"

def Relation.ofName? (name : String) : Option Relation :=
  Relation.all.find? (·.name == name)

/-! ## Types and values -/

def nullable {α : Type} (encode : α → Json) : Option α → Json
  | some a => encode a
  | none => .null

mutual

def Ty.toJson : Ty → Json
  | .void => .str "Void"
  | .int bits signed =>
    tagged "Int" (.obj [("bits", .integer bits.toNat), ("signed", .bool signed)])
  | .float bits => tagged "Float" (.obj [("bits", .integer bits.toNat)])
  | .ptr pointee => tagged "Ptr" pointee.toJson
  | .array size element =>
    tagged "Array" (.obj [("size", .integer size.toNat), ("element_type", element.toJson)])
  | .struct name fields =>
    tagged "Struct" (.obj [("name", nullable .str name), ("fields", .arr (Ty.toJsonAll fields))])

def Ty.toJsonAll : List Ty → List Json
  | [] => []
  | t :: ts => t.toJson :: Ty.toJsonAll ts

end

def Value.toJson : Value → Json
  | .temp id ty => tagged "Temp" (.obj [("id", .integer id.toNat), ("ty", ty.toJson)])
  | .param name ty => tagged "Param" (.obj [("name", .str name), ("ty", ty.toJson)])
  | .constant value ty =>
    tagged "Constant" (.obj [("value", .integer value.toInt), ("ty", ty.toJson)])
  | .floatConstant value ty =>
    tagged "FloatConstant" (.obj [("value", .float value), ("ty", ty.toJson)])
  | .global name ty => tagged "Global" (.obj [("name", .str name), ("ty", ty.toJson)])

/-! ## Instructions -/

def encodeId (id : TempId) : Json := .integer id.toNat

def Instruction.toJson : Instruction → Json
  | .binary result op lhs rhs ty =>
    tagged "Binary" (.obj [("result", encodeId result), ("op", .str op.name), ("lhs", lhs.toJson),
      ("rhs", rhs.toJson), ("ty", ty.toJson)])
  | .unary result op operand ty =>
    tagged "Unary" (.obj [("result", encodeId result), ("op", .str op.name),
      ("operand", operand.toJson), ("ty", ty.toJson)])
  | .compare result relation lhs rhs =>
    tagged "Compare" (.obj [("result", encodeId result), ("relation", .str relation.name),
      ("lhs", lhs.toJson), ("rhs", rhs.toJson)])
  | .stackAlloc result name ty =>
    tagged "StackAlloc" (.obj [("result", encodeId result), ("name", .str name),
      ("ty", ty.toJson)])
  | .load result ptr ty =>
    tagged "Load" (.obj [("result", encodeId result), ("ptr", ptr.toJson), ("ty", ty.toJson)])
  | .store value ptr => tagged "Store" (.obj [("value", value.toJson), ("ptr", ptr.toJson)])
  | .elementPtr result source index ty =>
    tagged "GetElementPtr" (.obj [("result", encodeId result), ("source", source.toJson),
      ("index", index.toJson), ("ty", ty.toJson)])
  | .memCopy dest source bytes =>
    tagged "MemCopy" (.obj [("dest", dest.toJson), ("source", source.toJson),
      ("bytes", .integer bytes.toNat)])
  | .call result callee args ty returnBuffer =>
    tagged "Call" (.obj [("result", nullable encodeId result), ("callee", .str callee),
      ("args", .arr (args.map (·.toJson))), ("ty", ty.toJson),
      ("implicit_struct_arg", nullable (fun n : UInt64 => .integer n.toNat) returnBuffer)])
  | .jump target => tagged "Jump" (.obj [("target", .str target)])
  | .branch condition trueTarget falseTarget =>
    tagged "Branch" (.obj [("condition", condition.toJson), ("true_target", .str trueTarget),
      ("false_target", nullable .str falseTarget)])
  | .ret value => tagged "Return" (nullable Value.toJson value)

/-! ## Functions and modules -/

def Block.toJson (b : Block) : Json :=
  .obj [("name", .str b.name), ("instructions", .arr (b.instructions.map (·.toJson)))]

def Parameter.toJson (p : Parameter) : Json :=
  .obj [("name", .str p.name), ("ty", p.ty.toJson), ("implicit_struct_ptr", .bool p.isReturnBuffer)]

def Function.toJson (f : Function) : Json :=
  .obj [("name", .str f.name), ("return_type", f.returnType.toJson),
    ("parameters", .arr (f.parameters.map (·.toJson))), ("blocks", .arr (f.blocks.map (·.toJson)))]

def Initializer.toJson : Initializer → Json
  | .int value => tagged "Int" (.integer value.toInt)
  | .list values => tagged "List" (.arr (values.map fun v => .integer v.toInt))
  | .str value => tagged "Str" (.str value)

def Global.toJson (g : Global) : Json :=
  .obj [("name", .str g.name), ("ty", g.ty.toJson),
    ("initializer", nullable Initializer.toJson g.initializer)]

def Module.toJson (m : Module) : Json :=
  .obj [("name", .str m.name), ("functions", .arr (m.functions.map (·.toJson))),
    ("globals", .arr (m.globals.map (·.toJson)))]

/-- The JSON text of a module. -/
def Module.print (m : Module) : String := m.toJson.pretty

end Retarget.Ir
