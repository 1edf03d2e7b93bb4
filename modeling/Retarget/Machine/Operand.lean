import Retarget.Machine.LowType

/-!
# Machine operands

An operand is a payload with a register-level type and, once register classes are chosen, the class
that its register has to come from.  Virtual registers, parameters and frame slots of one function
are numbered by one counter, so slots have a type of their own.
-/

namespace Retarget.Machine

/-- A virtual or physical register number; the operand says which of the two it is. -/
abbrev RegId := Nat

/-- A frame object of a function. -/
structure Slot where
  id : Nat
deriving DecidableEq

/-- A target's tag for a set of interchangeable registers. -/
structure RegClass where
  tag : Nat
deriving DecidableEq

def Slot.text (s : Slot) : String := s!"%stack.{s.id}"

def RegClass.text (c : RegClass) : String := s!"rc{c.tag}"

/-- What an operand names. -/
inductive Operand.Kind where
  | virtualReg (reg : RegId)
  | physicalReg (reg : RegId)
  | immediate (value : Int)
  /-- The memory at a register holding an address, plus a byte offset. -/
  | memory (base : RegId) (offset : Int)
  /-- A frame object plus a byte offset. -/
  | stack (slot : Slot) (offset : Int)
  /-- An incoming argument, allocated like a virtual register. -/
  | parameter (reg : RegId)
  | label (name : String)
  | function (name : String)
  | global (name : String)
deriving DecidableEq

structure Operand where
  kind : Operand.Kind
  ty : LowType
  regClass : Option RegClass := none
deriving DecidableEq

namespace Operand

def virtualReg (reg : RegId) (ty : LowType) : Operand := ⟨.virtualReg reg, ty, none⟩

def physicalReg (reg : RegId) (ty : LowType) : Operand := ⟨.physicalReg reg, ty, none⟩

def immediate (value : Int) (ty : LowType) : Operand := ⟨.immediate value, ty, none⟩

def memory (base : RegId) (offset : Int) (ty : LowType) : Operand := ⟨.memory base offset, ty, none⟩

def stack (slot : Slot) (offset : Int) (ty : LowType) : Operand := ⟨.stack slot offset, ty, none⟩

def parameter (reg : RegId) (ty : LowType) : Operand := ⟨.parameter reg, ty, none⟩

def label (name : String) : Operand := ⟨.label name, .invalid, none⟩

def function (name : String) : Operand := ⟨.function name, .invalid, none⟩

def global (name : String) (ty : LowType) : Operand := ⟨.global name, ty, none⟩

/-! ## Classification -/

def isPhysical (o : Operand) : Bool :=
  match o.kind with
  | .physicalReg _ => true
  | _ => false

def isVirtual (o : Operand) : Bool :=
  match o.kind with
  | .virtualReg _ => true
  | _ => false

/-- Whether the operand names a register once allocation is done. -/
def isRegLike (o : Operand) : Bool :=
  match o.kind with
  | .virtualReg _ | .physicalReg _ | .parameter _ => true
  | _ => false

def isImmediate (o : Operand) : Bool :=
  match o.kind with
  | .immediate _ => true
  | _ => false

def isMemory (o : Operand) : Bool :=
  match o.kind with
  | .memory _ _ => true
  | _ => false

def isStack (o : Operand) : Bool :=
  match o.kind with
  | .stack _ _ => true
  | _ => false

def isParameter (o : Operand) : Bool :=
  match o.kind with
  | .parameter _ => true
  | _ => false

def isLabel (o : Operand) : Bool :=
  match o.kind with
  | .label _ => true
  | _ => false

def isFunction (o : Operand) : Bool :=
  match o.kind with
  | .function _ => true
  | _ => false

def isGlobal (o : Operand) : Bool :=
  match o.kind with
  | .global _ => true
  | _ => false

/-! ## Parts -/

/-- The register number of a register, a parameter or a memory base. -/
def reg? (o : Operand) : Option RegId :=
  match o.kind with
  | .virtualReg r | .physicalReg r | .parameter r | .memory r _ => some r
  | _ => none

/-- The id that still needs a physical register: of a virtual register, a parameter or a memory
base. -/
def unallocated? (o : Operand) : Option RegId :=
  match o.kind with
  | .virtualReg r | .parameter r | .memory r _ => some r
  | _ => none

def immediate? (o : Operand) : Option Int :=
  match o.kind with
  | .immediate v => some v
  | _ => none

def slot? (o : Operand) : Option Slot :=
  match o.kind with
  | .stack s _ => some s
  | _ => none

def offset? (o : Operand) : Option Int :=
  match o.kind with
  | .stack _ n | .memory _ n => some n
  | _ => none

/-- A frame object and the byte in it that the operand names. -/
def frameByte? (o : Operand) : Option (Slot × Int) :=
  match o.kind with
  | .stack s n => some (s, n)
  | _ => none

def label? (o : Operand) : Option String :=
  match o.kind with
  | .label n => some n
  | _ => none

def symbol? (o : Operand) : Option String :=
  match o.kind with
  | .function n | .global n => some n
  | _ => none

def size (o : Operand) : Nat := o.ty.bits

/-! ## Changes -/

def withKind (o : Operand) (kind : Kind) : Operand := { o with kind := kind }

/-- The physical register `reg` in place of the operand, at its type. -/
def setPhysical (o : Operand) (reg : RegId) : Operand := o.withKind (.physicalReg reg)

def setImmediate (o : Operand) (value : Int) : Operand := o.withKind (.immediate value)

def setWidth (o : Operand) (bits : Nat) : Operand := { o with ty := { o.ty with bits := bits } }

/-- Another register number in a register, a parameter or a memory base; other operands stay. -/
def setReg (o : Operand) (reg : RegId) : Operand :=
  match o.kind with
  | .virtualReg _ => o.withKind (.virtualReg reg)
  | .physicalReg _ => o.withKind (.physicalReg reg)
  | .parameter _ => o.withKind (.parameter reg)
  | .memory _ offset => o.withKind (.memory reg offset)
  | _ => o

/-! ## Text -/

/-- The type and class that follow a register. -/
def typeSuffix (o : Operand) : String :=
  match o.regClass with
  | some c => s!"({o.ty.text}):{c.text}"
  | none => s!"({o.ty.text})"

def text (o : Operand) : String :=
  match o.kind with
  | .virtualReg r => s!"%vr{r}{o.typeSuffix}"
  | .physicalReg r => s!"$r{r}{o.typeSuffix}"
  | .immediate v => s!"#{v}"
  | .memory base offset => s!"[%vr{base} + {offset}]"
  | .stack slot offset => s!"{slot.text}+{offset}"
  | .parameter r => s!"%param{r}{o.typeSuffix}"
  | .label n => s!"<{n}>"
  | .function n | .global n => s!"@{n}"

end Operand

end Retarget.Machine
