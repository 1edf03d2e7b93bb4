import Retarget.Ir.Module

/-!
# Building functions step by step

A builder holds the function under construction, the name of the block that receives instructions,
and the number of the next temporary.  A step that is refused leaves the function and the block as
they were, but the temporary it asked for is used up.
-/

namespace Retarget.Ir

structure Builder where
  function : Option Function := none
  block : Option String := none
  nextTemp : TempId := 0

namespace Builder

/-- Why a step is refused. -/
inductive Refusal where
  | noFunction
  | noBlock
  | blockVanished
  | blockExists (name function : String)
  | blockMissing (name : String)
  | bufferOutOfRange (position : UInt64)
  /-- There is no number for another temporary. -/
  | tempsExhausted
deriving DecidableEq

def Refusal.message : Refusal → String
  | noFunction => "No current function"
  | noBlock => "No current block"
  | blockVanished => "Current block not found"
  | blockExists name function => s!"Block '{name}' already exists in '{function}'"
  | blockMissing name => s!"Block '{name}' not found"
  | bufferOutOfRange position => s!"Return buffer argument {position.toNat} out of range"
  | tempsExhausted => "number out of range"

/-- A step answers a value or a refusal, and always a builder. -/
abbrev Step := ExceptT Refusal (StateM Builder)

def currentFunction : Step Function := do
  match (← get).function with
  | some f => return f
  | none => throw .noFunction

def newTemp : Step TempId := do
  let id := (← get).nextTemp
  if id.toNat + 1 < Word.modulus 32 then
    modify fun b => { b with nextTemp := id + 1 }
    return id
  else throw .tempsExhausted

/-- Starts a function without parameters and blocks; its temporaries count from zero. -/
def startFunction (name : String) (returnType : Ty) : Step Unit :=
  set ({ function := some { name := name, returnType := returnType } } : Builder)

/-- One more parameter; the answer is the value that names it. -/
def addParameter (name : String) (ty : Ty) : Step Value := do
  let f ← currentFunction
  modify fun b =>
    { b with function := some { f with parameters := f.parameters ++ [⟨name, ty, false⟩] } }
  return .param name ty

/-- The parameter that holds the address of the caller's buffer for a result of type `ty`. -/
def addReturnBuffer (name : String) (ty : Ty) : Step Value := do
  let f ← currentFunction
  modify fun b =>
    { b with function := some { f with parameters := f.parameters ++ [⟨name, .ptr ty, true⟩] } }
  return .param name (.ptr ty)

def createBlock (name : String) : Step Unit := do
  let f ← currentFunction
  if (f.block? name).isSome then throw (.blockExists name f.name)
  modify fun b =>
    { b with function := some { f with blocks := f.blocks ++ [{ name := name }] }
             block := some name }

/-- Continues in a block that exists. -/
def setBlock (name : String) : Step Unit := do
  let f ← currentFunction
  if (f.block? name).isNone then throw (.blockMissing name)
  modify fun b => { b with block := some name }

/-- The blocks with an instruction at the end of the first one of a name. -/
def pushTo (name : String) (i : Instruction) : List Block → List Block
  | [] => []
  | b :: rest => if b.name == name then b.push i :: rest else b :: pushTo name i rest

def add (i : Instruction) : Step Unit := do
  let f ← currentFunction
  match (← get).block with
  | none => throw .noBlock
  | some name =>
    if (f.block? name).isNone then throw .blockVanished
    modify fun b => { b with function := some { f with blocks := pushTo name i f.blocks } }

/-- One more instruction that defines a new temporary; the answer is the temporary. -/
def define (ty : Ty) (instruction : TempId → Instruction) : Step Value := do
  let id ← newTemp
  add (instruction id)
  return .temp id ty

/-- The result has the type of the left operand. -/
def binary (op : BinaryOp) (lhs rhs : Value) : Step Value :=
  define lhs.ty fun id => .binary id op lhs rhs lhs.ty

def unary (op : UnaryOp) (operand : Value) (ty : Ty) : Step Value :=
  define ty fun id => .unary id op operand ty

def compare (relation : Relation) (lhs rhs : Value) : Step Value :=
  define .bool fun id => .compare id relation lhs rhs

/-- A local; the answer is its address. -/
def stackAlloc (name : String) (ty : Ty) : Step Value :=
  define (.ptr ty) fun id => .stackAlloc id name ty

def load (ptr : Value) (ty : Ty) : Step Value := define ty fun id => .load id ptr ty

def store (value ptr : Value) : Step Unit := add (.store value ptr)

def elementPtr (source index : Value) (ty : Ty) : Step Value :=
  define ty fun id => .elementPtr id source index ty

def memCopy (dest source : Value) (bytes : UInt64) : Step Unit := add (.memCopy dest source bytes)

/-- A call; without a result it defines no temporary. -/
def call (callee : String) (args : List Value) (ty : Ty) : Step (Option Value) :=
  if ty.isVoid then do
    add (.call none callee args ty none)
    return none
  else some <$> define ty fun id => .call (some id) callee args ty none

/-- A call that returns a large result through the buffer whose address is an argument. -/
def callWithBuffer (callee : String) (args : List Value) (position : UInt64) : Step Unit := do
  if args.length ≤ position.toNat then throw (.bufferOutOfRange position)
  add (.call none callee args .void (some position))

def jump (target : String) : Step Unit := add (.jump target)

def branch (condition : Value) (trueTarget : String) (falseTarget : Option String) : Step Unit :=
  add (.branch condition trueTarget falseTarget)

def ret (value : Option Value) : Step Unit := add (.ret value)

/-- The function that was built, if there is one; afterwards there is none. -/
def finish : Step (Option Function) := do
  let f := (← get).function
  modify fun b => { b with function := none, block := none }
  return f

def isTerminated (b : Builder) : Bool :=
  match b.function, b.block with
  | some f, some name => (f.block? name).any (·.hasTerminator)
  | _, _ => false

def run {α : Type} (b : Builder) (step : Step α) : Except Refusal α × Builder :=
  StateT.run (ExceptT.run step) b

end Builder

end Retarget.Ir
