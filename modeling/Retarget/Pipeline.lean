import Retarget.Allocation
import Retarget.Assembly
import Retarget.Json.Fields
import Retarget.Legalization
import Retarget.Lowering.Module
import Retarget.NativeCode
import Retarget.RegisterClass
import Retarget.Simplification
import Retarget.Target.AArch64
import Retarget.Target.Riscv

/-!
# From a module to assembly text

A module is lowered and then goes through a sequence of passes, each of which handles all functions
before the next one starts.  The first failure ends the whole run.
-/

namespace Retarget

/-! ## Targets by name -/

/-- The supported instruction sets. -/
inductive Arch where
  | aarch64
  | riscv32
deriving DecidableEq

namespace Arch

def target : Arch → Target
  | aarch64 => .aarch64
  | riscv32 => .riscv32

def text : Arch → String
  | aarch64 => "aarch64"
  | riscv32 => "riscv32"

/-- The instruction set of a name, in upper or lower case. -/
def parse (name : String) : Result Arch :=
  let lower := String.ofList (name.toList.map Char.toLower)
  if lower = "aarch64" ∨ lower = "arm64" then .ok aarch64
  else if lower = "riscv" ∨ lower = "riscv32" then .ok riscv32
  else .error (.unknownTarget name)

end Arch

/-! ## Stages -/

/-- The points of a run at which the machine code can be shown. -/
inductive Stage where
  | lowering
  | legalization
  | classes
  | allocation
  | selection
  | frames
deriving DecidableEq

namespace Stage

def all : List Stage := [.lowering, .legalization, .classes, .allocation, .selection, .frames]

def name : Stage → String
  | lowering => "lower"
  | legalization => "legalize"
  | classes => "regclass"
  | allocation => "regalloc"
  | selection => "isel"
  | frames => "pei"

def ofName? (name : String) : Option Stage := all.find? (·.name == name)

/-- What is said about a name that no stage has. -/
def unknown (name : String) : String :=
  s!"unknown stage '{name}', expected one of: " ++ ", ".intercalate (all.map (·.name))

/-- What the stage does to one function.  Lowering is over when passes begin. -/
def run (t : Target) (f : Machine.Function) : Stage → Result Machine.Function
  | lowering => .ok f
  | legalization => f.legalize t
  | classes => .ok (f.selectClasses t)
  | allocation => f.allocateRegisters t
  | selection => f.selectInstructions t
  | frames => f.insertFrameCode t

end Stage

/-- A step over the functions of a module: a stage, or the optimizer between two of them. -/
inductive Pass where
  | stage (stage : Stage)
  | optimize
deriving DecidableEq

namespace Pass

def name : Pass → String
  | stage s => s.name
  | optimize => "optimize"

def run (t : Target) (m : Machine.Module) (p : Pass) : Result Machine.Module := do
  let functions ← match p with
    | stage s => m.functions.mapM fun f => s.run t f
    | optimize => m.functions.mapM (·.optimized)
  return { m with functions := functions }

end Pass

/-! ## Runs -/

structure Options where
  arch : Arch := .aarch64
  optimize : Bool := false
  /-- The stage after which the machine code is shown. -/
  dump : Option Stage := none
deriving DecidableEq

namespace Options

def target (o : Options) : Target := o.arch.target

def passes (o : Options) : List Pass :=
  (if o.optimize then [.optimize] else []) ++
    [.stage .legalization, .stage .classes, .stage .allocation, .stage .selection, .stage .frames]

/-- The machine code of a module, ready to be printed. -/
def machineCode (o : Options) (m : Ir.Module) : Result Machine.Module := do
  let lowered ← Lowering.lowerModule o.target m
  o.passes.foldlM (Pass.run o.target) lowered

def compile (o : Options) (m : Ir.Module) : Result String := do
  let code ← o.machineCode m
  Assembly.emit o.target code

/-! ## Traces -/

/-- What one pass answers: the module after it, or why it failed. -/
structure Event where
  pass : Pass
  answer : Result Machine.Module

/-- The events of passes over a module, up to the first failure. -/
def follow (o : Options) : List Pass → Machine.Module → List Event
  | [], _ => []
  | p :: rest, m =>
    match p.run o.target m with
    | .ok m => ⟨p, .ok m⟩ :: o.follow rest m
    | .error e => [⟨p, .error e⟩]

/-- The events of a whole run, from lowering on. -/
def trace (o : Options) (m : Ir.Module) : List Event :=
  match Lowering.lowerModule o.target m with
  | .ok lowered => ⟨.stage .lowering, .ok lowered⟩ :: o.follow o.passes lowered
  | .error e => [⟨.stage .lowering, .error e⟩]

/-- The machine code to be shown during a run. -/
def dumpText (o : Options) (m : Ir.Module) : String :=
  match o.dump with
  | none => ""
  | some stage =>
    String.join ((o.trace m).map fun event =>
      match event.answer with
      | .ok code =>
        if event.pass = .stage stage then s!"; Machine IR after {stage.name}\n{code.text}" else ""
      | .error _ => "")

/-! ## JSON -/

def archOfName? (name : String) : Option Arch :=
  if name = "aarch64" then some .aarch64 else if name = "riscv" then some .riscv32 else none

def archName : Arch → String
  | .aarch64 => "aarch64"
  | .riscv32 => "riscv"

/-- Options from a record in which every field may be missing. -/
def ofJson? : Nat → Json → Option Options :=
  Json.record? ["target", "optimize", "dump_mir"] fun depth f => do
    let arch ← f.withDefault "target" .aarch64 fun j =>
      (Json.plainName? depth j).bind archOfName?
    let optimize ← f.withDefault "optimize" false Json.bool?
    let dump ← f.withDefault "dump_mir" none
      (Json.nullable? fun j => (Json.plainName? depth j).bind Stage.ofName?)
    return ⟨arch, optimize, dump⟩

def toJson (o : Options) : Json :=
  .obj [("target", .str (archName o.arch)), ("optimize", .bool o.optimize),
    ("dump_mir", match o.dump with
      | some stage => .str stage.name
      | none => .null)]

end Options

end Retarget
