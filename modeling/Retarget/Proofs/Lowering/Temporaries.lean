import Retarget.Ir.Module
import Retarget.Target.Basic

/-!
# Temporaries and their definitions

The points of a function are the numbers of its instructions, in the order of the blocks.  A
function is in single-assignment form if the one definition of a temporary dominates its uses
(`Function.SingleAssignment`).  That says nothing of the order of blocks: a block may stand in front
of one that dominates it.  A function is laid out in order if temporaries that lowering keeps in
memory or in pieces are defined in front of their uses (`Function.LaidOut`).
-/

namespace Retarget.Ir

/-- A value that an instruction takes.  An aggregate may be moved as a whole, piece by piece; other
values are taken as scalars or as addresses. -/
structure Use where
  value : Value
  isWhole : Bool := false

namespace Instruction

/-- What the instruction takes.  An argument for the caller's buffer is an address. -/
def uses : Instruction → List Use
  | binary _ _ lhs rhs _ | compare _ _ lhs rhs => [⟨lhs, false⟩, ⟨rhs, false⟩]
  | unary _ _ operand _ => [⟨operand, false⟩]
  | load _ ptr _ => [⟨ptr, false⟩]
  | store value ptr => [⟨ptr, false⟩, ⟨value, value.ty.isAggregate⟩]
  | elementPtr _ source index _ => [⟨source, false⟩, ⟨index, false⟩]
  | memCopy dest source _ => [⟨dest, false⟩, ⟨source, false⟩]
  | call _ _ args _ returnBuffer => args.zipIdx.map fun arg =>
      ⟨arg.1, arg.1.ty.isAggregate && returnBuffer.map (·.toNat) != some arg.2⟩
  | branch condition _ _ => [⟨condition, false⟩]
  | ret value => value.toList.map fun value => ⟨value, value.ty.isAggregate⟩
  | stackAlloc .. | jump _ => []

def temps (i : Instruction) : List TempId := i.uses.filterMap (·.value.tempId?)

/-- Whether the result is a scalar in a register of its own, and not an aggregate or the address of
a local. -/
def hasScalarResult : Instruction → Bool
  | stackAlloc .. => false
  | load _ _ ty | call _ _ _ ty _ => !ty.isAggregate
  | _ => true

/-- Whether the instruction loads an aggregate that the target keeps in registers, one for each
piece. -/
def loadsPieces (t : Target) : Instruction → Bool
  | load _ _ ty => ty.isAggregate && (ty.size t.pointerBytes).toOption.any fun bytes =>
      bytes * 8 ≤ t.convention.maxAggregateBits
  | _ => false

def targets : Instruction → List String
  | jump target => [target]
  | branch _ trueTarget falseTarget => trueTarget :: falseTarget.toList
  | _ => []

def fallsThrough : Instruction → Bool
  | jump _ | ret _ => false
  | branch _ _ falseTarget => falseTarget.isNone
  | _ => true

end Instruction

namespace Function

def instructions (f : Function) : List Instruction := f.blocks.flatMap (·.instructions)

/-- The number of an instruction. -/
abbrev Point (f : Function) := Fin f.instructions.length

def blockStart? (f : Function) (name : String) : Option Nat :=
  (f.blocks.findIdx? (·.name == name)).map fun b =>
    ((f.blocks.take b).flatMap (·.instructions)).length

def successors (f : Function) (n : Nat) : List Nat :=
  match f.instructions[n]? with
  | none => []
  | some i => (if i.fallsThrough then [n + 1] else []) ++ i.targets.filterMap f.blockStart?

/-- Control can get to the point `n` from the start without going through `p` before. -/
inductive Avoids (f : Function) (p : Nat) : Nat → Prop
  | entry : Avoids f p 0
  | step {n m : Nat} (hn : Avoids f p n) (hne : n ≠ p) (hedge : m ∈ f.successors n) : Avoids f p m

/-- Every way from the start to the point `n` goes through `p` before. -/
def Dominates (f : Function) (p n : Nat) : Prop := ¬ f.Avoids p n

/-- A temporary has one definition, and that dominates its uses. -/
structure SingleAssignment (f : Function) : Prop where
  unique : ∀ p q : f.Point, f.instructions[p].result?.isSome →
    f.instructions[p].result? = f.instructions[q].result? → p = q
  dominated : ∀ q : f.Point, ∀ id ∈ f.instructions[q].temps,
    ∃ p : f.Point, f.instructions[p].result? = some id ∧ f.Dominates p q

/-- A temporary that is no scalar is defined in front of its uses, and where its pieces are loaded
into registers, uses are of the whole aggregate. -/
def LaidOut (t : Target) (f : Function) : Prop :=
  ∀ p q : f.Point, ∀ use ∈ f.instructions[q].uses, f.instructions[p].result?.isSome →
    f.instructions[p].result? = use.value.tempId? → f.instructions[p].hasScalarResult = false →
    p < q ∧ (f.instructions[p].loadsPieces t → use.isWhole)

instance (t : Target) (f : Function) : Decidable (f.LaidOut t) :=
  inferInstanceAs (Decidable (∀ p q : f.Point, ∀ use ∈ f.instructions[q].uses, _))

/-- Some instruction defines the temporary as a scalar. -/
def IsScalar (f : Function) (id : TempId) : Prop :=
  ∃ i ∈ f.instructions, i.result? = some id ∧ i.hasScalarResult

/-- Some instruction loads the pieces of the temporary into registers. -/
def IsInPieces (t : Target) (f : Function) (id : TempId) : Prop :=
  ∃ i ∈ f.instructions, i.result? = some id ∧ i.loadsPieces t

/-- A point outside of a set that control stays in, but for a way through `p`, is dominated by
`p`. -/
theorem dominates_of_closed {f : Function} {p n : Nat} {set : List Nat} (hentry : 0 ∈ set)
    (hset : ∀ m ∈ set, m ≠ p → ∀ m' ∈ f.successors m, m' ∈ set) (hn : n ∉ set) :
    f.Dominates p n := by
  intro havoids
  refine hn ?_
  clear hn
  induction havoids with
  | entry => exact hentry
  | step _ hne hedge ih => exact hset _ ih hne _ hedge

/-- The points that control can get to without each point show dominance. -/
theorem SingleAssignment.of_closed {f : Function} (sets : Nat → List Nat)
    (hunique : ∀ p q : f.Point, f.instructions[p].result?.isSome →
      f.instructions[p].result? = f.instructions[q].result? → p = q)
    (hsets : ∀ p : f.Point, 0 ∈ sets p ∧
      ∀ m ∈ sets p, m ≠ p → ∀ m' ∈ f.successors m, m' ∈ sets p)
    (huses : ∀ q : f.Point, f.instructions[q].temps.all fun id =>
      decide (∃ p : f.Point, f.instructions[p].result? = some id ∧ q.val ∉ sets p)) :
    f.SingleAssignment where
  unique := hunique
  dominated q id hid := by
    obtain ⟨p, hp, hq⟩ := of_decide_eq_true (List.all_eq_true.mp (huses q) id hid)
    exact ⟨p, hp, dominates_of_closed (hsets p).1 (hsets p).2 hq⟩

end Function

end Retarget.Ir
