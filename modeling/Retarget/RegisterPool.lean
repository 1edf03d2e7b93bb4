import Retarget.Target.Register

/-!
# Free registers

The primary pool starts with the caller-saved registers.  The backup pool holds the callee-saved
ones, which are handed out only when the primary pool has none of a class.  Pools hold full-width
registers.
-/

namespace Retarget

open Machine (RegId RegClass)
open Target (Registers)

structure RegisterPool where
  primary : List RegId
  backup : List RegId
deriving DecidableEq

namespace RegisterPool

/-- A register that was free, and whether it came from the backup pool. -/
structure Taken where
  reg : RegId
  promoted : Bool
deriving DecidableEq

/-- The pools without the reserved registers. -/
def make (primary backup reserved : List RegId) : RegisterPool :=
  let free := List.filter fun r => !reserved.contains r
  ⟨free primary, free backup⟩

/-- The first free register with a view in the class, from the primary pool if there is one. -/
def take (p : RegisterPool) (rs : Registers) (c : RegClass) : Option (Taken × RegisterPool) :=
  let fits := fun reg => (rs.inClass? reg c).isSome
  match p.primary.find? fits with
  | some reg => some (⟨reg, false⟩, { p with primary := p.primary.eraseP fits })
  | none =>
    match p.backup.find? fits with
    | some reg => some (⟨reg, true⟩, { p with backup := p.backup.eraseP fits })
    | none => none

/-- A register goes back to the primary pool, wherever it came from. -/
def release (p : RegisterPool) (reg : RegId) : RegisterPool :=
  if p.primary.contains reg then p else { p with primary := p.primary ++ [reg] }

def available (p : RegisterPool) : Nat := p.primary.length + p.backup.length

end RegisterPool

end Retarget
