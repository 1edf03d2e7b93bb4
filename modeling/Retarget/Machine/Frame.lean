import Retarget.Word
import Retarget.Machine.Operand

/-!
# Stack frames

Frame objects lie one after another from the stack pointer up, in the order of their creation, so an
object's position is the sum of the sizes before it.
-/

namespace Retarget.Machine

structure FrameObject where
  slot : Slot
  size : Nat
deriving DecidableEq

structure Frame where
  objects : List FrameObject := []
deriving DecidableEq

namespace Frame

/-- The smallest size of a frame object, in bytes. -/
def minObjectSize : Nat := 4

def isEmpty (f : Frame) : Bool := f.objects.isEmpty

/-- A frame with one more object, on top of the others. -/
def insert (f : Frame) (slot : Slot) (size : Nat) : Frame :=
  ⟨f.objects ++ [⟨slot, max size minObjectSize⟩]⟩

def contains (f : Frame) (slot : Slot) : Bool :=
  f.objects.any (·.slot == slot)

def objectSize? (f : Frame) (slot : Slot) : Option Nat :=
  (f.objects.find? (·.slot == slot)).map (·.size)

/-- The position of `slot` among objects that start at `start`. -/
def positionFrom (slot : Slot) (start : Nat) : List FrameObject → Result (Option Nat)
  | [] => .ok none
  | o :: rest =>
    if o.slot == slot then .ok (some start)
    else do
      let next ← Word.fit 32 (start + o.size)
      positionFrom slot next rest

/-- The byte offset of `slot` from the stack pointer. -/
def position? (f : Frame) (slot : Slot) : Result (Option Nat) :=
  positionFrom slot 0 f.objects

/-- The size of all objects together, before alignment. -/
def size (f : Frame) : Result Nat :=
  Word.fit 32 (f.objects.foldr (fun o total => o.size + total) 0)

end Frame

end Retarget.Machine
