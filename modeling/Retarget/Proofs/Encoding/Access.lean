import Mathlib.Data.Int.Notation
import Retarget.Proofs.Selection.Forms
import Retarget.Proofs.Selection.Insertions
import Retarget.Proofs.Stack.FrameCode

/-!
# Loads and stores of allocated and native code

A load or store reaches some bytes at an offset from a base register (`Arch.access?`).  Selection
turns each access of allocated code into one native access of as many bytes at the same offset, and
makes no others (`accesses_selectInstructions`).
-/

namespace Retarget

open Machine Target

def Role.IsPlain (role : Role) : Prop := role ≠ .load ∧ role ≠ .store

instance (role : Role) : Decidable role.IsPlain := inferInstanceAs (Decidable (_ ∧ _))

def Machine.GenericOp.IsPlain (op : GenericOp) : Prop := op ≠ .load ∧ op ≠ .store ∧ op ≠ .zextLoad

instance (op : GenericOp) : Decidable op.IsPlain := inferInstanceAs (Decidable (_ ∧ _))

/-- What a load or store reaches: how many bytes, and the offset from its base, if it has one. -/
structure Access where
  bytes : Nat
  offset : Option Int
deriving DecidableEq

namespace Arch

/-- How many bits the register of an operand has; an operand without one has none. -/
def registerBits (a : Arch) (o : Option Operand) : Nat :=
  (((o.bind (·.reg?)).bind a.target.registers.get?).map (·.bits)).getD 0

/-- How many bits a load or store of allocated code moves to or from a register. -/
def movedBits (a : Arch) (o : Operand) : Nat :=
  match a with
  | aarch64 => (AArch64.loadOp o.size (AArch64.isFloatReg AArch64.registers o)).accessBits
      (a.registerBits (some o))
  | riscv32 => (Riscv.loadOp o.size).accessBits

/-- How many bits an extending load of allocated code reads, for a width in memory. -/
def extendedBits (a : Arch) (dest : Operand) (width : Int) : Nat :=
  match a, dest.reg? with
  | aarch64, some reg => (AArch64.loadOp (Word.low 32 width) false).accessBits
      (a.registerBits (some (AArch64.narrowTo32 AArch64.registers reg dest)))
  | _, _ => 0

/-- The access of an instruction of allocated or native code. -/
def access? (a : Arch) (i : Instruction) : Option Access :=
  match i.opcode with
  | .native _ =>
    match a.role i with
    | .load | .store => some ⟨a.accessBits (a.registerBits (i.operand? 0)) i / 8,
        (i.operand? 2).bind (·.immediate?)⟩
    | _ => none
  | .generic .load | .generic .store =>
    some ⟨(i.operand? 0).elim 0 a.movedBits / 8, (i.operand? 2).bind (·.immediate?)⟩
  | .generic .zextLoad =>
    some ⟨((i.operand? 0).elim 0 fun dest =>
        (((i.operand? 1).bind (·.immediate?)).elim 0 (a.extendedBits dest))) / 8,
      (i.operand? 3).bind (·.immediate?)⟩
  | .generic _ => none

end Arch

def Machine.Function.accesses (a : Arch) (f : Function) : List Access :=
  f.instructions.filterMap a.access?

namespace Arch

variable {a : Arch} {i j : Instruction}

theorem access?_eq_none {n : Nat} (hcode : i.opcode = .native n)
    (hrole : (a.role i).IsPlain) : a.access? i = none := by
  rw [access?, hcode]
  dsimp only
  split
  · next h => exact absurd h hrole.1
  · next h => exact absurd h hrole.2
  · rfl

theorem access?_of_generic {op : GenericOp} (hop : i.opcode = .generic op) (hplain : op.IsPlain) :
    a.access? i = none := by
  rw [access?, hop]
  cases op <;> first | rfl | simp [GenericOp.IsPlain] at hplain

theorem access?_of_nativeFlags? {flags : Flags} (h : a.nativeFlags? i = some flags)
    (hplain : flags.load = false ∧ flags.store = false) : a.access? i = none := by
  obtain ⟨-, hload, hstore⟩ := role_iff_of_nativeFlags? h
  rw [nativeFlags?] at h
  split at h
  · cases h
  · next hcode =>
    exact access?_eq_none hcode ⟨fun hrole => absurd (hload.mp hrole) (by simp [hplain.1]),
      fun hrole => absurd (hstore.mp hrole) (by simp [hplain.2])⟩

theorem access?_eq_some {n : Nat} (hcode : i.opcode = .native n)
    (hrole : a.role i = .load ∨ a.role i = .store) :
    a.access? i = some ⟨a.accessBits (a.registerBits (i.operand? 0)) i / 8,
      (i.operand? 2).bind (·.immediate?)⟩ := by
  rw [access?, hcode]
  rcases hrole with hrole | hrole <;> rw [hrole]

end Arch

/-! ## AArch64 -/

namespace Target.AArch64

variable {site : Site} {i : Instruction} {op : GenericOp} {r : Replacement}

theorem Op.access?_eq_none (op : Op) (hcode : i.opcode = op.opcode)
    (hop : op.role.IsPlain) : Arch.aarch64.access? i = none :=
  Arch.access?_eq_none hcode (by rwa [op.role_eq hcode])

theorem Op.access?_eq_some (op : Op) (hcode : i.opcode = op.opcode)
    (hop : op.role = .load ∨ op.role = .store) : Arch.aarch64.access? i =
      some ⟨op.accessBits (Arch.aarch64.registerBits (i.operand? 0)) / 8,
        (i.operand? 2).bind (·.immediate?)⟩ := by
  rw [Arch.access?_eq_some hcode (by rwa [op.role_eq hcode]), op.accessBits_eq hcode]

theorem accessBits_storeOp_eq (n bits : Nat) (isFloat : Bool) :
    (storeOp n isFloat).accessBits bits = (loadOp n isFloat).accessBits bits := by
  rw [storeOp, loadOp]
  split_ifs <;> rfl

theorem role_loadOp (n : Nat) (isFloat : Bool) : (loadOp n isFloat).role = .load := by
  rw [loadOp]
  split_ifs <;> rfl

theorem role_storeOp (n : Nat) (isFloat : Bool) : (storeOp n isFloat).role = .store := by
  rw [storeOp]
  split_ifs <;> rfl

theorem operand?_widenRegisters (i : Instruction) (k : Nat) :
    (widenRegisters i).operand? k =
      (i.operand? k).map fun o => if o.isPhysical && o.size < 32 then o.setWidth 32 else o :=
  List.getElem?_map

theorem registerBits_widenRegisters (i : Instruction) (k : Nat) :
    Arch.aarch64.registerBits ((widenRegisters i).operand? k) =
      Arch.aarch64.registerBits (i.operand? k) := by
  rw [operand?_widenRegisters, Arch.registerBits, Arch.registerBits, Option.bind_map]
  congr 4
  funext o
  dsimp only [Function.comp_apply]
  split <;> rfl

theorem immediate?_widenRegisters (i : Instruction) (k : Nat) :
    ((widenRegisters i).operand? k).bind (·.immediate?) =
      (i.operand? k).bind (·.immediate?) := by
  rw [operand?_widenRegisters, Option.bind_map]
  congr 1
  funext o
  dsimp only [Function.comp_apply]
  split <;> rfl

theorem access?_widenRegisters {flags : Flags}
    (h : Arch.aarch64.nativeFlags? (widenRegisters i) = some flags) :
    Arch.aarch64.access? (widenRegisters i) = Arch.aarch64.access? i := by
  obtain ⟨n, hcode⟩ : ∃ n, i.opcode = .native n := by
    cases hcode : i.opcode with
    | native n => exact ⟨n, rfl⟩
    | generic op =>
      rw [Arch.nativeFlags?, show (widenRegisters i).opcode = _ from hcode] at h
      cases h
  have hrole : Arch.aarch64.role (widenRegisters i) = Arch.aarch64.role i := rfl
  by_cases hmemory : Arch.aarch64.role i = .load ∨ Arch.aarch64.role i = .store
  · rw [Arch.access?_eq_some hcode hmemory,
      Arch.access?_eq_some (i := widenRegisters i) hcode hmemory,
      registerBits_widenRegisters, immediate?_widenRegisters]
    rfl
  · have hplain : (Arch.aarch64.role i).IsPlain := not_or.mp hmemory
    rw [Arch.access?_eq_none hcode hplain,
      Arch.access?_eq_none (i := widenRegisters i) hcode hplain]

/-- **The native form of an access** has the same access. -/
theorem Form.access? (h : Form registers site op r) (hop : site.instruction.opcode = .generic op)
    (hplain : ¬op.IsPlain) :
    Arch.aarch64.access? r.first = Arch.aarch64.access? site.instruction := by
  cases h with
  | load hdest =>
    rw [(loadOp _ _).access?_eq_some rfl (.inl (role_loadOp _ _)), Arch.access?, hop]
    dsimp only [Instruction.operand?, Instruction.operands_setOpcode]
    rw [show site.instruction.operands[0]? = some _ from hdest]
    rfl
  | zextLoad hdest hsource hwidth hreg =>
    rw [(loadOp _ _).access?_eq_some rfl (.inl (role_loadOp _ _)), Arch.access?, hop]
    dsimp only [Instruction.operand?, Instruction.operands_modifyOperand,
      Instruction.operands_setOpcode, Instruction.operands_eraseOperand]
    rw [List.getElem?_modify_eq, List.getElem?_modify_ne _ _ (Nat.succ_ne_zero 1).symm,
      List.getElem?_eraseIdx_of_lt Nat.zero_lt_one, List.getElem?_eraseIdx_of_ge (Nat.le_succ 1),
      show site.instruction.operands[0]? = some _ from hdest,
      show site.instruction.operands[1]? = some _ from hsource]
    simp [Arch.extendedBits, hwidth, hreg]
  | store hvalue =>
    rw [(storeOp _ _).access?_eq_some rfl (.inr (role_storeOp _ _)), Arch.access?, hop]
    dsimp only [Instruction.operand?, Instruction.operands_setOpcode]
    rw [show site.instruction.operands[0]? = some _ from hvalue, accessBits_storeOp_eq]
    rfl
  | register hforms | constant hforms =>
    cases op <;> cases hforms <;> exact absurd (by decide) hplain
  | compare hkind | fused hkind =>
    rcases hkind with ⟨rfl, -⟩ | ⟨rfl, -⟩ <;> exact absurd (by decide) hplain
  | smallConstant hkind | wideConstant hkind =>
    rcases hkind with rfl | rfl | rfl <;> exact absurd (by decide) hplain
  | move hkind => rcases hkind with rfl | rfl <;> exact absurd (by decide) hplain
  | convert hkind =>
    rcases hkind with rfl | rfl | rfl | rfl | rfl <;> exact absurd (by decide) hplain
  | _ => exact absurd (by decide) hplain

theorem access?_narrowSource (i : Instruction) :
    Arch.aarch64.access? (narrowSource registers i) = Arch.aarch64.access? i := by
  rw [narrowSource]
  split
  · next h =>
    have hcode : i.opcode = Op.movR.opcode ∨ i.opcode = Op.andI.opcode := by
      simp only [Bool.and_eq_true, Bool.or_eq_true, beq_iff_eq] at h
      exact h.1
    rcases hcode with hcode | hcode
    · rw [Op.movR.access?_eq_none hcode (by decide), Op.movR.access?_eq_none _ (by decide)]
      exact hcode
    · rw [Op.andI.access?_eq_none hcode (by decide), Op.andI.access?_eq_none _ (by decide)]
      exact hcode
  · rfl

end Target.AArch64

/-! ## RV32 -/

namespace Target.Riscv

variable {site : Site} {i : Instruction} {op : GenericOp} {r : Replacement}

theorem Op.access?_eq_some (op : Op) (hcode : i.opcode = op.opcode)
    (hop : op.role = .load ∨ op.role = .store) : Arch.riscv32.access? i =
      some ⟨op.accessBits / 8, (i.operand? 2).bind (·.immediate?)⟩ := by
  rw [Arch.access?_eq_some hcode (by rwa [op.role_eq hcode]), op.accessBits_eq hcode]

theorem accessBits_storeOp_eq (n : Nat) : (storeOp n).accessBits = (loadOp n).accessBits := by
  rw [storeOp, loadOp]
  split_ifs <;> rfl

theorem role_loadOp (n : Nat) : (loadOp n).role = .load := by
  rw [loadOp]
  split_ifs <;> rfl

theorem role_storeOp (n : Nat) : (storeOp n).role = .store := by
  rw [storeOp]
  split_ifs <;> rfl

/-- **The native form of an access** has the same access. -/
theorem Form.access? (h : Form site op r) (hop : site.instruction.opcode = .generic op)
    (hplain : ¬op.IsPlain) :
    Arch.riscv32.access? r.first = Arch.riscv32.access? site.instruction := by
  cases h with
  | load hdest =>
    rw [(loadOp _).access?_eq_some rfl (.inl (role_loadOp _)), Arch.access?, hop]
    dsimp only [Instruction.operand?, Instruction.operands_setOpcode]
    rw [show site.instruction.operands[0]? = some _ from hdest]
    rfl
  | store hvalue =>
    rw [(storeOp _).access?_eq_some rfl (.inr (role_storeOp _)), Arch.access?, hop]
    dsimp only [Instruction.operand?, Instruction.operands_setOpcode]
    rw [show site.instruction.operands[0]? = some _ from hvalue, accessBits_storeOp_eq]
    rfl
  | register hforms | constant hforms =>
    cases op <;> cases hforms <;> exact absurd (by decide) hplain
  | convert hkind => rcases hkind with rfl | rfl | rfl <;> exact absurd (by decide) hplain
  | unsigned hkind | mask hkind | move hkind =>
    rcases hkind with rfl | rfl <;> exact absurd (by decide) hplain
  | _ => exact absurd (by decide) hplain

end Target.Riscv

/-! ## Functions -/

namespace Machine.Function

variable {a : Arch} {f g : Function} {b k : Nat} {i : Instruction}

/-- **Native code has the access of the instruction** it is selected for and no other one. -/
theorem accesses_of_select {site : Site} {op : GenericOp} {r : Replacement}
    (hop : site.instruction.opcode = .generic op) (h : a.target.select site op = .ok r) :
    a.access? r.first = a.access? site.instruction ∧ ∀ j ∈ r.rest, a.access? j = none := by
  obtain ⟨hfirst, hrest⟩ := nativeFlags?_of_select h
  refine ⟨?_, fun j hj => ?_⟩
  · by_cases hplain : op.IsPlain
    · rw [Arch.access?_of_generic hop hplain]
      refine Arch.access?_of_nativeFlags? hfirst ?_
      cases op <;> first | exact ⟨rfl, rfl⟩ | exact absurd hplain (by decide)
    · cases a with
      | aarch64 =>
        obtain ⟨form, hform, rfl⟩ := AArch64.select_eq_ok h
        exact (AArch64.access?_widenRegisters hfirst).trans (hform.access? hop hplain)
      | riscv32 => exact (Riscv.select_eq_ok h).access? hop hplain
  · rcases hrest j hj with hflags | hflags <;>
      exact Arch.access?_of_nativeFlags? hflags ⟨rfl, rfl⟩

theorem Became.accesses {new : List Instruction} (h : Became a.target f b k i new) :
    new.filterMap a.access? = [i].filterMap a.access? := by
  rcases h with ⟨-, rfl⟩ | ⟨op, r, hop, hr, rfl⟩
  · rfl
  obtain ⟨hfirst, hrest⟩ := accesses_of_select (Instruction.generic?_eq_some hop) hr
  rw [List.filterMap_cons, hfirst, List.filterMap_eq_nil_iff.mpr hrest]
  rfl

theorem instructions_mapInstructions (f : Function) (change : Instruction → Instruction) :
    (f.mapInstructions change).instructions = f.instructions.map change := by
  rw [instructions, mapInstructions, List.flatMap_map, instructions, List.map_flatMap]

/-- Code has the results after selection that it had before, if what each instruction becomes has its
result and another view of a source changes none. -/
theorem filterMap_selectInstructions {α : Type} {p : Instruction → Option α}
    (hbecomes : ∀ i ∈ f.instructions, ∀ new, Becomes a.target i new →
      new.filterMap p = [i].filterMap p)
    (hnarrow : a = .aarch64 → ∀ i, p (AArch64.narrowSource AArch64.registers i) = p i)
    (h : f.selectInstructions a.target = .ok g) :
    g.instructions.filterMap p = f.instructions.filterMap p := by
  have hrewrite : (f.rewrite (becomes a.target f)).instructions.filterMap p =
      f.instructions.filterMap p :=
    filterMap_rewrite fun b k i hi =>
      hbecomes i (mem_of_instruction? hi) _ ⟨_, _, _, became h hi⟩
  have hfixUp : ∀ f : Function,
      (a.target.fixUp f).instructions.filterMap p = f.instructions.filterMap p := by
    intro f
    cases a with
    | riscv32 => rfl
    | aarch64 =>
      show ((AArch64.fixUp AArch64.registers f).instructions).filterMap _ = _
      rw [AArch64.fixUp, instructions_mapInstructions, List.filterMap_map]
      exact List.filterMap_congr fun i _ => hnarrow rfl i
  rw [selectInstructions_eq h, hfixUp, hrewrite]

/-- **Native code accesses what the allocated code does.** -/
theorem accesses_selectInstructions (h : f.selectInstructions a.target = .ok g) :
    g.accesses a = f.accesses a := by
  refine filterMap_selectInstructions (fun i _ new hnew => ?_) (fun ha i => ?_) h
  · obtain ⟨f, b, k, hbecame⟩ := hnew
    exact hbecame.accesses
  · subst ha
    exact AArch64.access?_narrowSource i

end Machine.Function

end Retarget
