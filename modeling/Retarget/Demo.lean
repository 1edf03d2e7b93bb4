import Retarget.Ir.Builder
import Retarget.Pipeline

/-!
# Demonstration modules

Small modules, each with one function, that go through the whole code generator.
-/

namespace Retarget

inductive Demo where
  | add
  | modulo
  | call
  | globals
  | structParam
  | loop
deriving DecidableEq

namespace Demo

def all : List Demo := [.add, .modulo, .call, .globals, .structParam, .loop]

def name : Demo → String
  | add => "add"
  | modulo => "modulo"
  | call => "call"
  | globals => "globals"
  | structParam => "struct-param"
  | loop => "loop"

def ofName? (name : String) : Option Demo := all.find? (·.name == name)

/-- What is said about a name that no module has. -/
def unknown (name : String) : String :=
  s!"Unknown test: {name} (expected one of " ++ ", ".intercalate (all.map (·.name)) ++ ")"

open Ir Ir.Builder

/-- `add(a, b) = a + b` -/
def buildAdd : Step Unit := do
  startFunction "add" .i32
  let a ← addParameter "a" .i32
  let b ← addParameter "b" .i32
  createBlock "entry"
  let sum ← binary .add a b
  ret (some sum)

/-- `rem(a) = a % 7` -/
def buildModulo : Step Unit := do
  startFunction "rem" .i32
  let a ← addParameter "a" .i32
  createBlock "entry"
  let r ← binary .mod a (.int 7)
  ret (some r)

/-- `twice(x) = callee(x, x)` -/
def buildCall : Step Unit := do
  startFunction "twice" .i32
  let x ← addParameter "x" .i32
  createBlock "entry"
  let result ← Builder.call "callee" [x, x] .i32
  ret result

def tableType : Ty := .array 3 .i32

/-- `second() = arr[1]` -/
def buildGlobals : Step Unit := do
  startFunction "second" .i32
  createBlock "entry"
  let element ← elementPtr (.global "arr" tableType) (.int 1) (.ptr .i32)
  let value ← load element .i32
  ret (some value)

/-- The integer of the width of a register. -/
def long : Arch → Ty
  | .aarch64 => .i64
  | .riscv32 => .i32

/-- `first(p) = p.a` for a pair that is passed by value. -/
def buildStructParam (arch : Arch) : Step Unit := do
  startFunction "first" (long arch)
  let p ← addParameter "p" (.struct (some "pair") [long arch, long arch])
  createBlock "entry"
  let a ← elementPtr p (.int 0) (.ptr (long arch))
  let value ← load a (long arch)
  ret (some value)

/-- `sum(n)` adds the numbers below `n` in a loop over two locals. -/
def buildLoop : Step Unit := do
  startFunction "sum" .i32
  let n ← addParameter "n" .i32
  createBlock "entry"
  let i ← stackAlloc "i" .i32
  let s ← stackAlloc "s" .i32
  store (.int 0) i
  store (.int 0) s
  jump "cond"
  createBlock "cond"
  let current ← load i .i32
  let more ← compare .lt current n
  branch more "body" (some "done")
  createBlock "body"
  let soFar ← load s .i32
  let current ← load i .i32
  let sum ← binary .add soFar current
  store sum s
  let next ← binary .add current (.int 1)
  store next i
  jump "cond"
  createBlock "done"
  let total ← load s .i32
  ret (some total)

def build (arch : Arch) : Demo → Step Unit
  | add => buildAdd
  | modulo => buildModulo
  | call => buildCall
  | globals => buildGlobals
  | structParam => buildStructParam arch
  | loop => buildLoop

/-- The module in the form that suits an instruction set. -/
def toModule (arch : Arch) (d : Demo) : Ir.Module where
  name := d.name
  functions := (Builder.run {} (d.build arch)).2.function.toList
  globals := match d with
    | globals => [⟨"arr", tableType, some (.list [1, 2, 3])⟩]
    | _ => []

end Demo

end Retarget
