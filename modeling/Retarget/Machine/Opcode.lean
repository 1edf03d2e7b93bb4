/-!
# Opcodes

Instructions start with generic opcodes and end with the native ones of a target.  Both have a
number: native opcodes lie below `Opcode.genericBase`, generic ones follow from it in the order of
`GenericOp.all`, so an instruction is selected exactly when its number is below the base.
-/

namespace Retarget.Machine

/-- The target-independent operations. -/
inductive GenericOp where
  | and | or | xor | lsl | lsr
  | add | sub | mul | div | divu | mod | modu
  | cmp
  | addf | subf | mulf | divf | cmpf
  | sext | zext | trunc | ftoi | itof
  | zextLoad | loadImm | load | store
  | stackAddress | globalAddress
  | jump | branch | call | ret
  | mov | movf
deriving DecidableEq

namespace GenericOp

def all : List GenericOp :=
  [.and, .or, .xor, .lsl, .lsr, .add, .sub, .mul, .div, .divu, .mod, .modu, .cmp,
    .addf, .subf, .mulf, .divf, .cmpf, .sext, .zext, .trunc, .ftoi, .itof,
    .zextLoad, .loadImm, .load, .store, .stackAddress, .globalAddress,
    .jump, .branch, .call, .ret, .mov, .movf]

def name : GenericOp → String
  | and => "AND"
  | or => "OR"
  | xor => "XOR"
  | lsl => "LSL"
  | lsr => "LSR"
  | add => "ADD"
  | sub => "SUB"
  | mul => "MUL"
  | div => "DIV"
  | divu => "DIVU"
  | mod => "MOD"
  | modu => "MODU"
  | cmp => "CMP"
  | addf => "ADDF"
  | subf => "SUBF"
  | mulf => "MULF"
  | divf => "DIVF"
  | cmpf => "CMPF"
  | sext => "SEXT"
  | zext => "ZEXT"
  | trunc => "TRUNC"
  | ftoi => "FTOI"
  | itof => "ITOF"
  | zextLoad => "ZEXT_LOAD"
  | loadImm => "LOAD_IMM"
  | load => "LOAD"
  | store => "STORE"
  | stackAddress => "STACK_ADDRESS"
  | globalAddress => "GLOBAL_ADDRESS"
  | jump => "JUMP"
  | branch => "BRANCH"
  | call => "CALL"
  | ret => "RET"
  | mov => "MOV"
  | movf => "MOVF"

def ofName? (name : String) : Option GenericOp :=
  all.find? fun op => op.name == name

/-- Operations of the form `dest = first op second`. -/
def isThreeAddress : GenericOp → Bool
  | and | or | xor | lsl | lsr | add | sub | mul | div | divu | mod | modu
  | addf | subf | mulf | divf => true
  | _ => false

/-- Width conversions of integers. -/
def isWidthConversion : GenericOp → Bool
  | sext | zext | trunc => true
  | _ => false

/-- Operations that only floating-point hardware carries out. -/
def isFloat : GenericOp → Bool
  | addf | subf | mulf | divf | cmpf | ftoi | itof | movf => true
  | _ => false

/-- Operations whose result depends on their operands alone. -/
def isPure : GenericOp → Bool
  | and | or | xor | lsl | lsr | add | sub | mul | div | divu | mod | modu
  | addf | subf | mulf | divf | sext | zext | trunc | ftoi | itof
  | loadImm | stackAddress | globalAddress => true
  | _ => false

end GenericOp

/-- A generic operation, or the number of an instruction of the target. -/
inductive Opcode where
  | generic (op : GenericOp)
  | native (number : Nat)
deriving DecidableEq

namespace Opcode

/-- The first number of a generic operation. -/
def genericBase : Nat := 0x10000

/-- The opcode with a given number; past the generic operations a number stands for itself. -/
def ofNumber (number : Nat) : Opcode :=
  if number < genericBase then .native number
  else match GenericOp.all[number - genericBase]? with
    | some op => .generic op
    | none => .native number

def number : Opcode → Nat
  | generic op => genericBase + GenericOp.all.idxOf op
  | native n => n

def generic? : Opcode → Option GenericOp
  | generic op => some op
  | native _ => none

/-- Whether selection has nothing left to do. -/
def isSelected : Opcode → Bool
  | generic _ => false
  | native n => n < genericBase

def text : Opcode → String
  | generic op => op.name
  | native n => s!"op{n}"

end Opcode

/-- The relations of a compare.  The unsigned one appears only in expansions. -/
inductive Relation where
  | eq | ne | lt | gt | le | ge | ltu
deriving DecidableEq

namespace Relation

def all : List Relation := [.eq, .ne, .lt, .gt, .le, .ge, .ltu]

/-- The relation that holds after the two compared operands change places. -/
def swapped : Relation → Relation
  | lt => gt
  | gt => lt
  | le => ge
  | ge => le
  | r => r

def text : Relation → String
  | eq => "eq"
  | ne => "ne"
  | lt => "lt"
  | gt => "gt"
  | le => "le"
  | ge => "ge"
  | ltu => "ltu"

def ofText? (text : String) : Option Relation :=
  all.find? fun r => r.text == text

end Relation

/-- What an instruction does besides computing. -/
structure Flags where
  load : Bool := false
  store : Bool := false
  ret : Bool := false
  jump : Bool := false
  call : Bool := false
  /-- Set on the results of an expansion. -/
  expanded : Bool := false
deriving DecidableEq

namespace Flags

def union (a b : Flags) : Flags :=
  ⟨a.load || b.load, a.store || b.store, a.ret || b.ret, a.jump || b.jump, a.call || b.call,
    a.expanded || b.expanded⟩

/-- Every flag with its name, in the order in which flags are listed. -/
def named : List (String × Flags) :=
  [("load", { load := true }), ("store", { store := true }), ("return", { ret := true }),
    ("jump", { jump := true }), ("call", { call := true }), ("expanded", { expanded := true })]

/-- The names of the flags that are set. -/
def names (f : Flags) : List String :=
  (named.filter fun entry => f.union entry.2 == f).map (·.1)

end Flags

/-- The flags that follow from the operation alone. -/
def GenericOp.flags : GenericOp → Flags
  | load | zextLoad => { load := true }
  | store => { store := true }
  | ret => { ret := true }
  | jump | branch => { jump := true }
  | call => { call := true }
  | _ => {}

def Opcode.flags : Opcode → Flags
  | generic op => op.flags
  | native _ => {}

end Retarget.Machine
