import Retarget.NativeCode
import Retarget.Pipeline
import Retarget.Proofs.Shape.Templates

/-!
# Paths through native code

What an instruction does to the stack pointer, and through it, is read off its opcode and its
operands (`Arch.stackEffect`).  A path follows native code from the entry of a function over
fall-through, jumps and both outcomes of branches, and collects these effects (`Function.Path`).
Between two transfers it runs through a prefix of a block, so what every run from the start of a
block to a way out of it keeps holds along all paths (`Path.induct`).
-/

namespace Retarget

open Machine

/-! ## Roles -/

/-- What an instruction means for control and for the stack pointer. -/
inductive Role where
  | plain
  /-- A constant is added to a register. -/
  | increment
  /-- A constant is subtracted from a register. -/
  | decrement
  | load
  | store
  | branch
  | jump
  | ret
deriving DecidableEq

namespace Role

def fallsThrough : Role → Bool
  | jump | ret => false
  | _ => true

def transfers : Role → Bool
  | branch | jump => true
  | _ => false

end Role

def Target.AArch64.Op.role : AArch64.Op → Role
  | addI => .increment
  | subI => .decrement
  | ldr | ldrb | ldrh => .load
  | str | strb | strh => .store
  | bEq | bNe | bLt | bGt | bLe | bGe | bLo | cbnz => .branch
  | b => .jump
  | ret => .ret
  | _ => .plain

def Target.Riscv.Op.role : Riscv.Op → Role
  | addi => .increment
  | lb | lh | lw => .load
  | sb | sh | sw => .store
  | bnez => .branch
  | j => .jump
  | ret => .ret
  | _ => .plain

namespace Arch

def nativeRole (number : Nat) : Arch → Role
  | aarch64 => Target.AArch64.Op.all[number]?.elim .plain (·.role)
  | riscv32 => Target.Riscv.Op.all[number]?.elim .plain (·.role)

/-- The role of an instruction; one that is not selected yet has none. -/
def role (a : Arch) (i : Instruction) : Role :=
  match i.opcode with
  | .generic _ => .plain
  | .native number => a.nativeRole number

end Arch

theorem Target.AArch64.Op.role_eq {i : Instruction} (op : AArch64.Op) (h : i.opcode = op.opcode) :
    Arch.aarch64.role i = op.role := by
  rw [Arch.role, h]
  cases op <;> rfl

theorem Target.Riscv.Op.role_eq {i : Instruction} (op : Riscv.Op) (h : i.opcode = op.opcode) :
    Arch.riscv32.role i = op.role := by
  rw [Arch.role, h]
  cases op <;> rfl

/-! ## The stack -/

namespace Machine

/-- What an instruction does to the stack pointer or, at an offset from it, in memory. -/
inductive StackEffect where
  | none
  /-- The stack pointer moves, by a distance that the instruction may not tell. -/
  | move (distance : Option Int)
  | store (reg : RegId) (offset : Int)
  | load (reg : RegId) (offset : Int)
deriving DecidableEq

/-- A store or a load of a register at an offset from the stack pointer. -/
structure StackAccess where
  isStore : Bool
  reg : RegId
  /-- The place, counted from the stack pointer at the entry of the function, as far as known. -/
  place : Option Int
deriving DecidableEq

/-- What a path has done to the stack. -/
structure StackView where
  /-- How far the stack pointer is from where it was at the entry, as far as known. -/
  pointer : Option Int := some 0
  /-- The accesses so far, in their order. -/
  accesses : List StackAccess := []
deriving DecidableEq

end Machine

/-- The effect of an instruction on the stack.  A write of the stack pointer that is no move by a
constant leaves it unknown; a call comes back with the stack pointer that it was made with. -/
def Arch.stackEffect (a : Arch) (i : Instruction) : StackEffect :=
  let sp := Operand.Kind.physicalReg a.target.registers.stack
  match i.operands.map (·.kind) with
  | [] => .none
  | dest :: rest =>
    if dest = sp then
      .move (match a.role i, rest with
        | .increment, [base, .immediate n] => if base = sp then some n else none
        | .decrement, [base, .immediate n] => if base = sp then some (-n) else none
        | _, _ => none)
    else match a.role i, dest, rest with
      | .store, .physicalReg reg, [base, .immediate n] => if base = sp then .store reg n else .none
      | .load, .physicalReg reg, [base, .immediate n] => if base = sp then .load reg n else .none
      | _, _, _ => .none

namespace Machine.StackView

def apply (v : StackView) : StackEffect → StackView
  | .none => v
  | .move distance => { v with pointer := v.pointer.bind fun p => distance.map (p + ·) }
  | .store reg offset =>
    { v with accesses := v.accesses ++ [⟨true, reg, v.pointer.map (· + offset)⟩] }
  | .load reg offset =>
    { v with accesses := v.accesses ++ [⟨false, reg, v.pointer.map (· + offset)⟩] }

/-- The stack after instructions, one after the other. -/
def run (a : Arch) (v : StackView) (is : List Instruction) : StackView :=
  is.foldl (fun v i => v.apply (a.stackEffect i)) v

/-- Where the first store of a register went. -/
def savedAt? (v : StackView) (reg : RegId) : Option (Option Int) :=
  (v.accesses.find? fun x => x.isStore && x.reg == reg).map (·.place)

/-- Where the last load of a register came from. -/
def reloadedFrom? (v : StackView) (reg : RegId) : Option (Option Int) :=
  (v.accesses.reverse.find? fun x => !x.isStore && x.reg == reg).map (·.place)

variable {a : Arch} {v : StackView}

@[simp] theorem run_nil : v.run a [] = v := rfl

theorem run_append (is js : List Instruction) : v.run a (is ++ js) = (v.run a is).run a js :=
  List.foldl_append

theorem run_eq_foldl_apply (is : List Instruction) :
    v.run a is = (is.map a.stackEffect).foldl apply v := by
  rw [run, List.foldl_map]

theorem savedAt?_apply {reg : RegId} {place : Option Int} (h : v.savedAt? reg = some place)
    (e : StackEffect) : (v.apply e).savedAt? reg = some place := by
  rw [savedAt?, Option.map_eq_some_iff] at h ⊢
  obtain ⟨x, hx, hplace⟩ := h
  cases e with
  | none | move distance => exact ⟨x, hx, hplace⟩
  | store reg' offset | load reg' offset =>
    exact ⟨x, by rw [apply, List.find?_append, hx]; rfl, hplace⟩

theorem savedAt?_run {reg : RegId} {place : Option Int} (h : v.savedAt? reg = some place)
    (is : List Instruction) : (v.run a is).savedAt? reg = some place := by
  induction is generalizing v with
  | nil => exact h
  | cons i is ih => exact ih (savedAt?_apply h _)

end Machine.StackView

/-! ## Paths -/

namespace Machine.Function

/-- Control gets from the entry of the function to position `k` of block `b`, and has then entered
the first block `entries` times. -/
inductive Path (a : Arch) (f : Function) : (b k entries : Nat) → StackView → Prop
  | entry : Path a f 0 0 1 {}
  /-- On to the next instruction. -/
  | next {b k n : Nat} {v : StackView} {i : Instruction} (path : Path a f b k n v)
      (hi : f.instruction? b k = some i) (hrole : (a.role i).fallsThrough) :
      Path a f b (k + 1) n (v.apply (a.stackEffect i))
  /-- To a block that a jump or a branch names. -/
  | transfer {b k n c : Nat} {v : StackView} {i : Instruction} {o : Operand} {block : Block}
      (path : Path a f b k n v) (hi : f.instruction? b k = some i)
      (hrole : (a.role i).transfers) (ho : o ∈ i.operands)
      (hlabel : o.label? = some block.name) (hblock : f.blocks[c]? = some block) :
      Path a f c 0 (if c = 0 then n + 1 else n) (v.apply (a.stackEffect i))
  /-- From the end of a block to the next one. -/
  | leave {b n : Nat} {v : StackView} (path : Path a f b (f.blockLength b) n v)
      (hb : b + 1 < f.blocks.length) : Path a f (b + 1) 0 n v

/-- The stack pointer is back where it was at the entry, and every saved register was loaded, last,
from where it was stored first. -/
def IsBalanced (t : Target) (f : Function) (v : StackView) : Prop :=
  v.pointer = some 0 ∧ ∀ reg ∈ f.registersToSave t,
    ∃ place : Int, v.savedAt? reg = some (some place) ∧ v.reloadedFrom? reg = some (some place)

/-- Instructions that a run through a block passes when it leaves the block behind the last of them:
there is no return among them, and they are all of the block or end in a jump or a branch. -/
structure LeavesBlock (a : Arch) (code is : List Instruction) : Prop where
  isPrefix : is <+: code
  no_ret : ∀ i ∈ is, a.role i ≠ .ret
  ends : is = code ∨ ∃ i, is.getLast? = some i ∧ (a.role i).transfers

variable {a : Arch} {f : Function}

theorem role_ne_ret {r : Role} (h : r.fallsThrough ∨ r.transfers) : r ≠ .ret := by
  rintro rfl
  simp [Role.fallsThrough, Role.transfers] at h

theorem length_rest_zero (f : Function) (b : Nat) : (f.rest b 0).length = f.blockLength b := by
  rw [rest, blockLength]
  cases f.blocks[b]? <;> rfl

theorem rest_zero_eq {b : Nat} {block : Block} (h : f.blocks[b]? = some block) :
    f.rest b 0 = block.instructions := by
  rw [rest, h]
  rfl

theorem rest_zero_getElem? (f : Function) (b k : Nat) :
    (f.rest b 0)[k]? = f.instruction? b k := by
  rw [rest, instruction?]
  cases f.blocks[b]? <;> simp

theorem take_rest_succ {b k : Nat} {i : Instruction} (h : f.instruction? b k = some i) :
    (f.rest b 0).take (k + 1) = (f.rest b 0).take k ++ [i] := by
  rw [List.take_add_one, rest_zero_getElem?, h]
  rfl

/-- **Paths go from block to block**: what holds of the entry, and holds again after every run from
the start of a block to a way out of it, holds of the start of the block that a path is in, and
there is no return between that start and the point. -/
theorem Path.induct {Start : Nat → Nat → StackView → Prop} (hentry : Start 0 1 {})
    (hleave : ∀ b block n v is, f.blocks[b]? = some block → Start b n v →
      LeavesBlock a block.instructions is → ∀ c, Start c (if c = 0 then n + 1 else n) (v.run a is))
    {b k n : Nat} {v : StackView} (path : f.Path a b k n v) :
    ∃ w, Start b n w ∧ v = w.run a ((f.rest b 0).take k) ∧
      ∀ i ∈ (f.rest b 0).take k, a.role i ≠ .ret := by
  induction path with
  | entry => exact ⟨{}, hentry, rfl, by simp⟩
  | @next b k n v i path hi hrole ih =>
    obtain ⟨w, hw, rfl, hret⟩ := ih
    refine ⟨w, hw, ?_, ?_⟩
    · rw [take_rest_succ hi, StackView.run_append]
      rfl
    · rw [take_rest_succ hi]
      simpa [or_imp, forall_and] using ⟨hret, role_ne_ret (.inl hrole)⟩
  | @transfer b k n c v i o block path hi hrole ho hlabel hblock ih =>
    obtain ⟨w, hw, rfl, hret⟩ := ih
    obtain ⟨source, hfrom, -⟩ := Option.bind_eq_some_iff.mp hi
    have hleaves : LeavesBlock a source.instructions ((f.rest b 0).take (k + 1)) := by
      rw [← rest_zero_eq hfrom]
      refine ⟨List.take_prefix _ _, ?_, .inr ⟨i, ?_, hrole⟩⟩
      · rw [take_rest_succ hi]
        simpa [or_imp, forall_and] using ⟨hret, role_ne_ret (.inr hrole)⟩
      · rw [take_rest_succ hi, List.getLast?_concat]
    have hstart := hleave b source n w _ hfrom hw hleaves c
    rw [take_rest_succ hi, StackView.run_append] at hstart
    exact ⟨_, hstart, rfl, by simp⟩
  | @leave b n v path hb ih =>
    obtain ⟨w, hw, rfl, hret⟩ := ih
    have hblock : f.blocks[b]? = some f.blocks[b] := List.getElem?_eq_getElem (by omega)
    have htake : (f.rest b 0).take (f.blockLength b) = f.blocks[b].instructions := by
      rw [← length_rest_zero, List.take_length, rest_zero_eq hblock]
    rw [htake] at hret ⊢
    exact ⟨_, hleave b _ n w _ hblock hw ⟨List.prefix_refl _, hret, .inl rfl⟩ (b + 1), rfl, by simp⟩

end Machine.Function

end Retarget
