import Retarget.Word

/-!
# Types of the intermediate representation

Scalars carry their width in bits, pointers their pointee, aggregates their members.  The width of a
pointer belongs to the target, so every size takes it as a parameter.
-/

namespace Retarget.Ir

inductive Ty where
  | void
  /-- An integer; the one-bit unsigned integer is the result of a compare. -/
  | int (bits : UInt8) (isSigned : Bool)
  | float (bits : UInt8)
  | ptr (pointee : Ty)
  | array (size : UInt64) (element : Ty)
  /-- Members lie back to back. -/
  | struct (name : Option String) (fields : List Ty)

namespace Ty

/-! ## Equality -/

mutual

def same : Ty → Ty → Bool
  | void, void => true
  | int m s, int n t => m == n && s == t
  | float m, float n => m == n
  | ptr a, ptr b => same a b
  | array m a, array n b => m == n && same a b
  | struct m as, struct n bs => m == n && sameAll as bs
  | _, _ => false

def sameAll : List Ty → List Ty → Bool
  | [], [] => true
  | a :: as, b :: bs => same a b && sameAll as bs
  | _, _ => false

end

mutual

theorem same_iff : ∀ a b : Ty, same a b = true ↔ a = b
  | void, b => by cases b <;> simp [same]
  | int .., b => by cases b <;> simp [same]
  | float _, b => by cases b <;> simp [same]
  | ptr a, b => by cases b <;> simp [same, same_iff a]
  | array _ a, b => by cases b <;> simp [same, same_iff a]
  | struct _ as, b => by cases b <;> simp [same, sameAll_iff as]

theorem sameAll_iff : ∀ as bs : List Ty, sameAll as bs = true ↔ as = bs
  | [], bs => by cases bs <;> simp [sameAll]
  | a :: as, bs => by cases bs <;> simp [sameAll, same_iff a, sameAll_iff as]

end

instance : DecidableEq Ty := fun a b => decidable_of_iff _ (same_iff a b)

/-! ## Names for common types -/

def bool : Ty := .int 1 false

def i8 : Ty := .int 8 true

def i16 : Ty := .int 16 true

def i32 : Ty := .int 32 true

def i64 : Ty := .int 64 true

def u8 : Ty := .int 8 false

def u32 : Ty := .int 32 false

def f32 : Ty := .float 32

def f64 : Ty := .float 64

/-! ## Classification -/

def isVoid : Ty → Bool
  | void => true
  | _ => false

def isInteger : Ty → Bool
  | int .. => true
  | _ => false

def isFloat : Ty → Bool
  | float _ => true
  | _ => false

def isPointer : Ty → Bool
  | ptr _ => true
  | _ => false

def isStruct : Ty → Bool
  | struct .. => true
  | _ => false

def isAggregate : Ty → Bool
  | struct .. | array .. => true
  | _ => false

def isSigned : Ty → Bool
  | int _ signed => signed
  | _ => false

/-- What a pointer points to, or an array holds. -/
def element? : Ty → Option Ty
  | ptr pointee => some pointee
  | array _ element => some element
  | _ => none

def fieldType? (t : Ty) (index : Nat) : Option Ty :=
  match t with
  | struct _ fields => fields[index]?
  | _ => none

/-! ## Sizes -/

mutual

def size (pointerBytes : Nat) : Ty → Result Nat
  | void => .ok 0
  | int bits _ | float bits => .ok ((bits.toNat + 7) / 8)
  | ptr _ => .ok pointerBytes
  | array count element => do
    let bytes ← size pointerBytes element
    Word.fit 64 (count.toNat * bytes)
  | struct _ fields => sizeAll pointerBytes fields

/-- The size in bytes of types that lie back to back. -/
def sizeAll (pointerBytes : Nat) : List Ty → Result Nat
  | [] => .ok 0
  | field :: fields => do
    let bytes ← size pointerBytes field
    let rest ← sizeAll pointerBytes fields
    Word.fit 64 (bytes + rest)

end

/-- The width in bits of a value that is held in registers; an aggregate's wraps at 32 bits. -/
def bitWidth (pointerBytes : Nat) : Ty → Result Nat
  | int bits _ | float bits => .ok bits.toNat
  | t => do
    let bytes ← t.size pointerBytes
    let bits ← Word.fit 64 (bytes * 8)
    return bits % Word.modulus 32

def fieldOffset? (pointerBytes : Nat) (t : Ty) (index : Nat) : Result (Option Nat) :=
  match t with
  | struct _ fields =>
    if index < fields.length then some <$> sizeAll pointerBytes (fields.take index)
    else .ok none
  | _ => .ok none

mutual

/-- The sizes in bytes of the scalars inside, in memory order. -/
def leaves (pointerBytes : Nat) : Ty → List Nat
  | void => []
  | int bits _ | float bits => [(bits.toNat + 7) / 8]
  | ptr _ => [pointerBytes]
  | array count element =>
    let inner := leaves pointerBytes element
    if inner.isEmpty then [] else (List.replicate count.toNat inner).flatten
  | struct _ fields => leavesAll pointerBytes fields

/-- The sizes in bytes of the scalars inside types that lie back to back. -/
def leavesAll (pointerBytes : Nat) : List Ty → List Nat
  | [] => []
  | field :: fields => leaves pointerBytes field ++ leavesAll pointerBytes fields

end

/-- The number of scalars from which on an array cannot be written out. -/
def maxLeaves : Nat := Word.modulus 60

mutual

/-- How many scalars lie inside. -/
def leafCount : Ty → Result Nat
  | void => .ok 0
  | int .. | float _ | ptr _ => .ok 1
  | array count element => do
    let inner ← leafCount element
    if maxLeaves ≤ inner * count.toNat then throw .outOfRange
    return inner * count.toNat
  | struct _ fields => leafCountAll fields

/-- How many scalars lie inside types that lie back to back. -/
def leafCountAll : List Ty → Result Nat
  | [] => .ok 0
  | field :: fields => do
    let first ← leafCount field
    let rest ← leafCountAll fields
    return first + rest

end

/-! ## Text -/

mutual

def text : Ty → String
  | void => "void"
  | int bits signed => (if signed then "i" else "u") ++ toString bits.toNat
  | float bits => s!"f{bits.toNat}"
  | ptr pointee => text pointee ++ "*"
  | array count element => s!"[{count.toNat} x " ++ text element ++ "]"
  | struct (some name) _ => s!"%{name}"
  | struct none fields => "\x7b" ++ ", ".intercalate (texts fields) ++ "\x7d"

def texts : List Ty → List String
  | [] => []
  | t :: ts => text t :: texts ts

end

end Ty

end Retarget.Ir
