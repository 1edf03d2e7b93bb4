import Retarget.Ir.Encoding
import Retarget.Json.Reader

/-!
# Modules from JSON

Each reader takes the number of objects and arrays that may still be opened, and answers nothing for
a tree that is not of its form.
-/

namespace Retarget.Ir

open Json

/-! ## Types and values -/

/-- The content of an alternative, at the depth inside it. -/
def content? {α : Type} (content : Option Json) (depth : Nat) (read : Nat → Json → Option α) :
    Option α := do
  let j ← content
  match depth with
  | 0 => none
  | depth + 1 => read depth j

/-- A type.  Each round goes through one alternative, which opens at least one object. -/
def Ty.read? : Nat → Nat → Json → Option Ty
  | 0, _, j => if j.str? = some "Void" then some .void else none
  | rounds + 1, depth, j => do
    let (name, content) ← alternative? j
    let record {α : Type} (names : List String) (read : Nat → Fields → Option α) : Option α :=
      content? content depth (record? names read)
    match name with
    | "Void" => (plainName? depth j).map fun _ => .void
    | "Int" => record ["bits", "signed"] fun _ f => do
      let bits ← f.required "bits" uint8?
      let signed ← f.required "signed" bool?
      return .int bits signed
    | "Float" => record ["bits"] fun _ f => do
      let bits ← f.required "bits" uint8?
      return .float bits
    | "Ptr" => (content? content depth (Ty.read? rounds)).map .ptr
    | "Array" => record ["size", "element_type"] fun depth f => do
      let size ← f.required "size" uint64?
      let element ← f.required "element_type" (Ty.read? rounds depth)
      return .array size element
    | "Struct" => record ["name", "fields"] fun depth f => do
      let name ← f.optional "name" str?
      let fields ← f.required "fields" (list? (Ty.read? rounds) depth)
      return .struct name fields
    | _ => none

/-- A type; its depth bounds its rounds. -/
def Ty.ofJson? (depth : Nat) (j : Json) : Option Ty := Ty.read? depth depth j

/-- One of the alternatives whose content is a record with the given fields. -/
def variant? {α : Type} (read : String → Option (List String × (Nat → Fields → Option α)))
    (depth : Nat) (j : Json) : Option α := do
  let (name, content) ← alternative? j
  let (names, read) ← read name
  content? content depth (record? names read)

def Value.ofJson? : Nat → Json → Option Value :=
  variant? fun
    | "Temp" => some (["id", "ty"], fun depth f => do
      let id ← f.required "id" uint32?
      let ty ← f.required "ty" (Ty.ofJson? depth)
      return .temp id ty)
    | "Param" => some (["name", "ty"], fun depth f => do
      let name ← f.required "name" str?
      let ty ← f.required "ty" (Ty.ofJson? depth)
      return .param name ty)
    | "Constant" => some (["value", "ty"], fun depth f => do
      let value ← f.required "value" int64?
      let ty ← f.required "ty" (Ty.ofJson? depth)
      return .constant value ty)
    | "FloatConstant" => some (["value", "ty"], fun depth f => do
      let value ← f.required "value" float?
      let ty ← f.required "ty" (Ty.ofJson? depth)
      return .floatConstant value ty)
    | "Global" => some (["name", "ty"], fun depth f => do
      let name ← f.required "name" str?
      let ty ← f.required "ty" (Ty.ofJson? depth)
      return .global name ty)
    | _ => none

/-! ## Instructions -/

def BinaryOp.ofJson? (depth : Nat) (j : Json) : Option BinaryOp :=
  (plainName? depth j).bind BinaryOp.ofName?

def UnaryOp.ofJson? (depth : Nat) (j : Json) : Option UnaryOp :=
  (plainName? depth j).bind UnaryOp.ofName?

def Relation.ofJson? (depth : Nat) (j : Json) : Option Relation :=
  (plainName? depth j).bind Relation.ofName?

/-- The instructions whose content is a record. -/
def Instruction.ofRecord? : String → Option (List String × (Nat → Fields → Option Instruction))
  | "Binary" => some (["result", "op", "lhs", "rhs", "ty"], fun depth f => do
    let result ← f.required "result" uint32?
    let op ← f.required "op" (BinaryOp.ofJson? depth)
    let lhs ← f.required "lhs" (Value.ofJson? depth)
    let rhs ← f.required "rhs" (Value.ofJson? depth)
    let ty ← f.required "ty" (Ty.ofJson? depth)
    return .binary result op lhs rhs ty)
  | "Unary" => some (["result", "op", "operand", "ty"], fun depth f => do
    let result ← f.required "result" uint32?
    let op ← f.required "op" (UnaryOp.ofJson? depth)
    let operand ← f.required "operand" (Value.ofJson? depth)
    let ty ← f.required "ty" (Ty.ofJson? depth)
    return .unary result op operand ty)
  | "Compare" => some (["result", "relation", "lhs", "rhs"], fun depth f => do
    let result ← f.required "result" uint32?
    let relation ← f.required "relation" (Relation.ofJson? depth)
    let lhs ← f.required "lhs" (Value.ofJson? depth)
    let rhs ← f.required "rhs" (Value.ofJson? depth)
    return .compare result relation lhs rhs)
  | "StackAlloc" => some (["result", "name", "ty"], fun depth f => do
    let result ← f.required "result" uint32?
    let name ← f.required "name" str?
    let ty ← f.required "ty" (Ty.ofJson? depth)
    return .stackAlloc result name ty)
  | "Load" => some (["result", "ptr", "ty"], fun depth f => do
    let result ← f.required "result" uint32?
    let ptr ← f.required "ptr" (Value.ofJson? depth)
    let ty ← f.required "ty" (Ty.ofJson? depth)
    return .load result ptr ty)
  | "Store" => some (["value", "ptr"], fun depth f => do
    let value ← f.required "value" (Value.ofJson? depth)
    let ptr ← f.required "ptr" (Value.ofJson? depth)
    return .store value ptr)
  | "GetElementPtr" => some (["result", "source", "index", "ty"], fun depth f => do
    let result ← f.required "result" uint32?
    let source ← f.required "source" (Value.ofJson? depth)
    let index ← f.required "index" (Value.ofJson? depth)
    let ty ← f.required "ty" (Ty.ofJson? depth)
    return .elementPtr result source index ty)
  | "MemCopy" => some (["dest", "source", "bytes"], fun depth f => do
    let dest ← f.required "dest" (Value.ofJson? depth)
    let source ← f.required "source" (Value.ofJson? depth)
    let bytes ← f.required "bytes" uint64?
    return .memCopy dest source bytes)
  | "Call" =>
    some (["result", "callee", "args", "ty", "implicit_struct_arg"], fun depth f => do
      let result ← f.optional "result" uint32?
      let callee ← f.required "callee" str?
      let args ← f.required "args" (list? Value.ofJson? depth)
      let ty ← f.required "ty" (Ty.ofJson? depth)
      let returnBuffer ← f.optional "implicit_struct_arg" uint64?
      return .call result callee args ty returnBuffer)
  | "Jump" => some (["target"], fun _ f => do
    let target ← f.required "target" str?
    return .jump target)
  | "Branch" => some (["condition", "true_target", "false_target"], fun depth f => do
    let condition ← f.required "condition" (Value.ofJson? depth)
    let trueTarget ← f.required "true_target" str?
    let falseTarget ← f.optional "false_target" str?
    return .branch condition trueTarget falseTarget)
  | _ => none

def Instruction.ofJson? (depth : Nat) (j : Json) : Option Instruction := do
  let (name, content) ← alternative? j
  if name = "Return" then
    let value ← content? content depth fun depth => nullable? (Value.ofJson? depth)
    return .ret value
  else variant? Instruction.ofRecord? depth j

/-! ## Functions and modules -/

def Block.ofJson? : Nat → Json → Option Block :=
  record? ["name", "instructions"] fun depth f => do
    let name ← f.required "name" str?
    let instructions ← f.required "instructions" (list? Instruction.ofJson? depth)
    return ⟨name, instructions⟩

def Parameter.ofJson? : Nat → Json → Option Parameter :=
  record? ["name", "ty", "implicit_struct_ptr"] fun depth f => do
    let name ← f.required "name" str?
    let ty ← f.required "ty" (Ty.ofJson? depth)
    let isReturnBuffer ← f.withDefault "implicit_struct_ptr" false bool?
    return ⟨name, ty, isReturnBuffer⟩

def Function.ofJson? : Nat → Json → Option Function :=
  record? ["name", "return_type", "parameters", "blocks"] fun depth f => do
    let name ← f.required "name" str?
    let returnType ← f.required "return_type" (Ty.ofJson? depth)
    let parameters ← f.required "parameters" (list? Parameter.ofJson? depth)
    let blocks ← f.required "blocks" (list? Block.ofJson? depth)
    return ⟨name, returnType, parameters, blocks⟩

def Initializer.ofJson? (depth : Nat) (j : Json) : Option Initializer := do
  let (name, content) ← alternative? j
  match name with
  | "Int" => (content? content depth fun _ => int64?).map .int
  | "List" => (content? content depth (list? fun _ => int64?)).map .list
  | "Str" => (content? content depth fun _ => str?).map .str
  | _ => none

def Global.ofJson? : Nat → Json → Option Global :=
  record? ["name", "ty", "initializer"] fun depth f => do
    let name ← f.required "name" str?
    let ty ← f.required "ty" (Ty.ofJson? depth)
    let initializer ← f.optional "initializer" (Initializer.ofJson? depth)
    return ⟨name, ty, initializer⟩

def Module.ofJson? : Nat → Json → Option Module :=
  record? ["name", "functions", "globals"] fun depth f => do
    let name ← f.required "name" str?
    let functions ← f.required "functions" (list? Function.ofJson? depth)
    let globals ← f.withDefault "globals" [] (list? Global.ofJson? depth)
    return ⟨name, functions, globals⟩

/-- The module that a JSON text writes. -/
def Module.parse? (text : String) : Option Module := do
  let j ← Json.parse? text
  Module.ofJson? maxDepth j

end Retarget.Ir
