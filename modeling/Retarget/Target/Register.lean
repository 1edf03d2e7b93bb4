import Retarget.Machine.Operand

/-!
# Physical registers

A target lists its registers by number.  A wide register lists the narrower views it contains; the
widest member of such a family is its root, and two registers share storage exactly when their roots
agree.
-/

namespace Retarget.Target

open Machine (RegId RegClass)

structure Register where
  id : RegId
  name : String
  bits : Nat
  /-- The name of the calling convention, printed instead of `name`. -/
  abiName : Option String := none
  /-- The narrower views inside this register. -/
  views : List RegId := []
  isFloat : Bool := false
deriving DecidableEq

def Register.shown (r : Register) : String := r.abiName.getD r.name

/-- The registers of a target and the roles some of them play. -/
structure Registers where
  /-- The register at position `n` has the number `n`. -/
  file : List Register
  link : RegId
  stack : RegId
  /-- Holds the address of the caller's buffer for a large result. -/
  returnBuffer : RegId
  /-- The register that reads as zero, at a width. -/
  zero : Nat → RegId
  /-- The class for a value of some width, floating-point or not. -/
  classFor : Nat → Bool → RegClass
  classOf? : RegId → Option RegClass
  className : RegClass → String

namespace Registers

def get? (rs : Registers) (id : RegId) : Option Register := rs.file[id]?

/-- The register that contains `id` as a narrower view. -/
def parent? (rs : Registers) (id : RegId) : Option RegId :=
  (rs.file.find? fun r => r.views.contains id).map (·.id)

/-- The full-width register that contains `id`. -/
def root (rs : Registers) (id : RegId) : RegId := (rs.parent? id).getD id

def overlaps (rs : Registers) (a b : RegId) : Bool := rs.root a == rs.root b

def nameOf (rs : Registers) (id : RegId) : String :=
  match rs.get? id with
  | some r => r.shown
  | none => s!"?r{id}"

def isFloat (rs : Registers) (id : RegId) : Bool := (rs.get? id).any (·.isFloat)

/-- Of two members of a family, the better home for `bits` bits: the narrower of those that are wide
enough, or else the wider. -/
def betterFor (bits : Nat) (current candidate : Register) : Register :=
  if bits ≤ candidate.bits then
    if bits ≤ current.bits && current.bits ≤ candidate.bits then current else candidate
  else if bits ≤ current.bits || candidate.bits ≤ current.bits then current
  else candidate

/-- The member of the family of `id` that holds `bits` bits best. -/
def withWidth (rs : Registers) (id : RegId) (bits : Nat) : RegId :=
  match rs.get? (rs.root id) with
  | none => id
  | some top => ((top.views.filterMap rs.get?).foldl (betterFor bits) top).id

/-- `id` or the first of its views that belongs to the class. -/
def inClass? (rs : Registers) (id : RegId) (c : RegClass) : Option RegId :=
  if rs.classOf? id == some c then some id
  else (rs.get? id).bind fun r => r.views.find? fun v => rs.classOf? v == some c

end Registers

end Retarget.Target
