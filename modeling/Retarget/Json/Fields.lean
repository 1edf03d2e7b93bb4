import Retarget.Json.Basic
import Retarget.Word

/-!
# Records and alternatives in JSON

A record is an object, whose members may stand in any order among others that are ignored, or an
array of its fields in order.  An alternative is an object with one member, named for the
alternative; one without content may also be a bare name.  Whatever is read costs one unit of depth
for each object or array around it.
-/

namespace Retarget.Json

/-- How many objects and arrays may lie around a value. -/
def maxDepth : Nat := 127

/-! ## Scalars -/

def int? : Json → Option Int
  | integer n => some n
  | _ => none

def bool? : Json → Option Bool
  | bool b => some b
  | _ => none

def str? : Json → Option String
  | str s => some s
  | _ => none

/-- A number, written with a point or without. -/
def float? : Json → Option Float
  | integer n => some (Float.ofInt n)
  | float x => some x
  | _ => none

/-- An unsigned integer of `bits` bits. -/
def unsigned? (bits : Nat) (j : Json) : Option Nat := do
  let n ← j.int?
  if 0 ≤ n ∧ n < Word.modulus bits then some n.toNat else none

def uint8? (j : Json) : Option UInt8 := (j.unsigned? 8).map UInt8.ofNat

def uint32? (j : Json) : Option UInt32 := (j.unsigned? 32).map UInt32.ofNat

def uint64? (j : Json) : Option UInt64 := (j.unsigned? 64).map UInt64.ofNat

def int64? (j : Json) : Option Int64 := do
  let n ← j.int?
  if -Word.modulus 63 ≤ n ∧ n < Word.modulus 63 then some (Int64.ofInt n) else none

def nullable? {α : Type} (read : Json → Option α) : Json → Option (Option α)
  | null => some none
  | j => (read j).map some

/-- The items of an array, read at the depth inside it. -/
def list? {α : Type} (read : Nat → Json → Option α) : Nat → Json → Option (List α)
  | depth + 1, arr items => items.mapM (read depth)
  | _, _ => none

/-! ## Records -/

/-- The fields of a record that are present. -/
structure Fields where
  entries : List (String × Json)
  /-- Whether the record is an object, in which a field may be missing. -/
  named : Bool

/-- The fields of a record with the given names; no field may be given twice. -/
def fields? (names : List String) : Json → Option Fields
  | obj members =>
    let known := members.filter fun m => names.contains m.1
    if (known.map (·.1)).Nodup then some ⟨known, true⟩ else none
  | arr items => if items.length ≤ names.length then some ⟨names.zip items, false⟩ else none
  | _ => none

namespace Fields

variable {α : Type}

def required (f : Fields) (name : String) (read : Json → Option α) : Option α :=
  (f.entries.lookup name).bind read

/-- A field that may be null, or missing from an object. -/
def optional (f : Fields) (name : String) (read : Json → Option α) : Option (Option α) :=
  match f.entries.lookup name with
  | some j => nullable? read j
  | none => if f.named then some none else none

def withDefault (f : Fields) (name : String) (default : α) (read : Json → Option α) : Option α :=
  match f.entries.lookup name with
  | some j => read j
  | none => some default

end Fields

/-- A record, read at the depth inside it. -/
def record? {α : Type} (names : List String) (read : Nat → Fields → Option α) :
    Nat → Json → Option α
  | depth + 1, j => (fields? names j).bind (read depth)
  | 0, _ => none

/-! ## Alternatives -/

/-- The name and the content of an alternative; a bare name has no content. -/
def alternative? : Json → Option (String × Option Json)
  | str name => some (name, none)
  | obj [(name, content)] => some (name, some content)
  | _ => none

/-- The name of an alternative that has no content. -/
def plainName? : Nat → Json → Option String
  | _, str name => some name
  | _ + 1, obj [(name, null)] => some name
  | _, _ => none

/-- An object with one member. -/
def tagged (name : String) (content : Json) : Json := obj [(name, content)]

end Retarget.Json
