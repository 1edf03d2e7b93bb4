import Retarget.Ir.Instruction
import Retarget.Text.Quoted

/-!
# Modules of the intermediate representation

A module is a list of functions and a list of global variables.  A function is a list of named
blocks; without blocks it only declares its name and type.
-/

namespace Retarget.Ir

structure Block where
  name : String
  instructions : List Instruction := []
deriving BEq

namespace Block

def isEmpty (b : Block) : Bool := b.instructions.isEmpty

def hasTerminator (b : Block) : Bool := b.instructions.getLast?.any (·.isTerminator)

def push (b : Block) (i : Instruction) : Block :=
  { b with instructions := b.instructions ++ [i] }

def text (b : Block) : String :=
  s!"{b.name}:\n" ++ String.join (b.instructions.map fun i => s!"  {i.text}\n")

end Block

structure Parameter where
  name : String
  ty : Ty
  /-- Whether it holds the address of the caller's buffer for a large result. -/
  isReturnBuffer : Bool := false
deriving BEq

structure Function where
  name : String
  returnType : Ty
  parameters : List Parameter := []
  blocks : List Block := []
deriving BEq

namespace Function

def block? (f : Function) (name : String) : Option Block := f.blocks.find? (·.name == name)

def parameter? (f : Function) (name : String) : Option Parameter :=
  f.parameters.find? (·.name == name)

/-- A declaration has no body. -/
def isDeclaration (f : Function) : Bool := f.blocks.isEmpty

def text (f : Function) : String :=
  s!"define {f.returnType.text} @{f.name}(" ++
    ", ".intercalate (f.parameters.map fun p => s!"{p.ty.text} ${p.name}") ++ ") \x7b\n" ++
    String.join (f.blocks.map (·.text)) ++ "\x7d\n"

end Function

/-- The value that a global variable starts with. -/
inductive Initializer where
  | int (value : Int64)
  /-- One value for each scalar inside; missing ones are zero. -/
  | list (values : List Int64)
  /-- A text that ends with a zero byte. -/
  | str (value : String)
deriving BEq

def Initializer.text : Initializer → String
  | .int value => toString value.toInt
  | .list values => "[" ++ ", ".intercalate (values.map fun v => toString v.toInt) ++ "]"
  | .str value => Text.quoted value

structure Global where
  name : String
  ty : Ty
  initializer : Option Initializer := none
deriving BEq

def Global.text (g : Global) : String :=
  let initializer := match g.initializer with
    | some i => i.text
    | none => "zeroinitializer"
  s!"@{g.name} = global {g.ty.text} {initializer}\n"

structure Module where
  name : String
  functions : List Function := []
  globals : List Global := []
deriving BEq

namespace Module

def function? (m : Module) (name : String) : Option Function :=
  m.functions.find? (·.name == name)

def global? (m : Module) (name : String) : Option Global := m.globals.find? (·.name == name)

def text (m : Module) : String :=
  s!"; ModuleID = '{m.name}'\n" ++ String.join (m.globals.map (·.text)) ++
    String.join (m.functions.map fun f => s!"\n{f.text}")

end Module

end Retarget.Ir
