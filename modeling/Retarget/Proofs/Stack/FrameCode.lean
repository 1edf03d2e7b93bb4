import Retarget.Proofs.Selection.Insertions
import Retarget.Proofs.Stack.Steady

/-!
# Frame code in the blocks of a function

The code of a frame stands in front of the first block and in front of the first return of every
block, and each of its instructions has one effect on the stack (`Acts`), on all of the register that
it accesses.  So a block with frame code is that code around a body that leaves the stack pointer
alone (`IsFramed`).
-/

namespace Retarget

open Machine Target

/-! ## Effects of frame code -/

namespace Machine.StackView

/-- The effects of the code at the entry: the stack pointer moves down, and registers are stored. -/
def enterEffects (size : Nat) (places : List (RegId × Int)) : List StackEffect :=
  .move (some (-size)) :: places.map fun p => .store p.1 p.2

/-- The effects of the code before a return: registers are loaded in the opposite order, and the
stack pointer moves up. -/
def leaveEffects (size : Nat) (places : List (RegId × Int)) : List StackEffect :=
  (places.reverse.map fun p => .load p.1 p.2) ++ [.move (some size)]

theorem known_of_mem_enterEffects {size : Nat} {places : List (RegId × Int)} :
    ∀ e ∈ enterEffects size places, e ≠ .none ∧ e ≠ .move none := by
  intro e he
  rcases List.mem_cons.mp he with rfl | he
  · simp
  · obtain ⟨p, -, rfl⟩ := List.mem_map.mp he
    simp

theorem known_of_mem_leaveEffects {size : Nat} {places : List (RegId × Int)} :
    ∀ e ∈ leaveEffects size places, e ≠ .none ∧ e ≠ .move none := by
  intro e he
  rcases List.mem_append.mp he with he | he
  · obtain ⟨p, -, rfl⟩ := List.mem_map.mp he
    simp
  · rw [List.mem_singleton.mp he]
    simp

section

variable {size : Nat} {places : List (RegId × Int)} {e : StackEffect} {reg : RegId} {n : Int}

theorem mem_places_of_enterEffects (h : e ∈ enterEffects size places)
    (he : e = .store reg n ∨ e = .load reg n) : reg ∈ places.map (·.1) := by
  rcases List.mem_cons.mp h with rfl | h
  · simp at he
  · obtain ⟨p, hp, rfl⟩ := List.mem_map.mp h
    obtain ⟨rfl, -⟩ := StackEffect.store.inj (he.resolve_right nofun)
    exact List.mem_map_of_mem hp

theorem mem_places_of_leaveEffects (h : e ∈ leaveEffects size places)
    (he : e = .store reg n ∨ e = .load reg n) : reg ∈ places.map (·.1) := by
  rcases List.mem_append.mp h with h | h
  · obtain ⟨p, hp, rfl⟩ := List.mem_map.mp h
    obtain ⟨rfl, -⟩ := StackEffect.load.inj (he.resolve_left nofun)
    exact List.mem_map_of_mem (List.mem_reverse.mp hp)
  · simp [List.mem_singleton.mp h] at he

end

def enter (size : Nat) (places : List (RegId × Int)) (v : StackView) : StackView :=
  (enterEffects size places).foldl apply v

def leave (size : Nat) (places : List (RegId × Int)) (v : StackView) : StackView :=
  (leaveEffects size places).foldl apply v

end Machine.StackView

/-- How many bits the operation accesses in memory, for a register of `bits` bits. -/
def Target.AArch64.Op.accessBits (bits : Nat) : AArch64.Op → Nat
  | ldrb | strb => 8
  | ldrh | strh => 16
  | _ => bits

def Target.Riscv.Op.accessBits : Riscv.Op → Nat
  | lb | sb => 8
  | lh | sh => 16
  | _ => 32

namespace Arch

/-- How many bits the instruction accesses in memory, for a register of `bits` bits. -/
def accessBits (a : Arch) (bits : Nat) (i : Instruction) : Nat :=
  match i.opcode with
  | .generic _ => bits
  | .native number =>
    match a with
    | aarch64 => Target.AArch64.Op.all[number]?.elim bits (·.accessBits bits)
    | riscv32 => Target.Riscv.Op.all[number]?.elim bits (·.accessBits)

/-- The instruction has the effect, and accesses all of the register that the effect is about. -/
structure Performs (a : Arch) (i : Instruction) (e : StackEffect) : Prop where
  effect : a.stackEffect i = e
  whole : ∀ reg n r, e = .store reg n ∨ e = .load reg n → a.target.registers.get? reg = some r →
    a.accessBits r.bits i = r.bits

/-- The instruction accesses all of the register at an offset from the stack pointer. -/
structure Accesses (a : Arch) (role : Role) (i : Instruction) (reg : RegId) (n : Int) : Prop where
  role_eq : a.role i = role
  kinds : i.operands.map (·.kind) =
    [.physicalReg reg, .physicalReg a.target.registers.stack, .immediate n]
  whole : ∀ r, a.target.registers.get? reg = some r → a.accessBits r.bits i = r.bits

/-- The instruction is one for the effect, whichever register that is about. -/
def Enacts (a : Arch) (i : Instruction) : StackEffect → Prop
  | .store reg n => a.Accesses .store i reg n
  | .load reg n => a.Accesses .load i reg n
  | e => a.stackEffect i = e

variable {a : Arch} {i : Instruction} {reg : RegId} {n : Int}

theorem performs_move {distance : Option Int} (h : a.stackEffect i = .move distance) :
    a.Performs i (.move distance) :=
  ⟨h, by simp⟩

theorem map_stackEffect {is : List Instruction} {es : List StackEffect}
    (h : List.Forall₂ a.Performs is es) : is.map a.stackEffect = es := by
  rw [← List.forall₂_eq_eq_eq, List.forall₂_map_left_iff]
  exact h.imp fun _ _ hi => hi.effect

theorem wide_of_get? {r : Target.Register} (h : a.target.registers.get? reg = some r) :
    16 < r.bits := by
  have hwide : ∀ r ∈ a.target.registers.file, 16 < r.bits := by
    cases a <;> decide +kernel
  exact hwide r (List.mem_of_getElem? h)

theorem stackEffect_increment (hrole : a.role i = .increment)
    (hkinds : i.operands.map (·.kind) = [.physicalReg a.target.registers.stack,
      .physicalReg a.target.registers.stack, .immediate n]) :
    a.stackEffect i = .move (some n) := by
  simp [stackEffect, hrole, hkinds]

theorem stackEffect_decrement (hrole : a.role i = .decrement)
    (hkinds : i.operands.map (·.kind) = [.physicalReg a.target.registers.stack,
      .physicalReg a.target.registers.stack, .immediate n]) :
    a.stackEffect i = .move (some (-n)) := by
  simp [stackEffect, hrole, hkinds]

theorem stackEffect_store (hrole : a.role i = .store) (hreg : reg ≠ a.target.registers.stack)
    (hkinds : i.operands.map (·.kind) = [.physicalReg reg,
      .physicalReg a.target.registers.stack, .immediate n]) :
    a.stackEffect i = .store reg n := by
  simp [stackEffect, hrole, hkinds, hreg]

theorem stackEffect_load (hrole : a.role i = .load) (hreg : reg ≠ a.target.registers.stack)
    (hkinds : i.operands.map (·.kind) = [.physicalReg reg,
      .physicalReg a.target.registers.stack, .immediate n]) :
    a.stackEffect i = .load reg n := by
  simp [stackEffect, hrole, hkinds, hreg]

/-- It performs the effect if the register is not the stack pointer itself. -/
theorem Enacts.performs {e : StackEffect} (h : a.Enacts i e)
    (hreg : ∀ reg n, e = .store reg n ∨ e = .load reg n → reg ≠ a.target.registers.stack) :
    a.Performs i e := by
  cases e with
  | none => exact ⟨h, by simp⟩
  | move distance => exact performs_move h
  | store reg n =>
    refine ⟨stackEffect_store h.role_eq (hreg reg n (.inl rfl)) h.kinds, fun reg' n' r heffect => ?_⟩
    cases heffect.resolve_right (by rintro ⟨⟩)
    exact h.whole r
  | load reg n =>
    refine ⟨stackEffect_load h.role_eq (hreg reg n (.inr rfl)) h.kinds, fun reg' n' r heffect => ?_⟩
    cases heffect.resolve_left (by rintro ⟨⟩)
    exact h.whole r

theorem performs_of_enacts {is : List Instruction} {es : List StackEffect}
    (h : List.Forall₂ a.Enacts is es) (hes : ∀ e ∈ es, ∀ reg n, e = .store reg n ∨ e = .load reg n →
      reg ≠ a.target.registers.stack) : List.Forall₂ a.Performs is es :=
  ((List.forall₂_and_left _ _).mpr ⟨hes, h.flip⟩).flip.imp fun _ _ h => Enacts.performs h.2 h.1

/-- An instruction that moves the stack pointer by a constant or accesses memory through it goes on
to the next one. -/
theorem straight_of_stackEffect {e : StackEffect} (h : a.stackEffect i = e)
    (he : e ≠ .none ∧ e ≠ .move none) : (a.role i).transfers = false ∧ a.role i ≠ .ret := by
  subst h
  rw [stackEffect] at he
  cases hrole : a.role i with
  | plain | branch | jump | ret =>
    exfalso
    simp only [hrole] at he
    split at he
    · simp at he
    · split at he <;> simp at he
  | _ => simp [Role.transfers]

end Arch

namespace Target

theorem AArch64.Op.accessBits_eq {i : Instruction} {bits : Nat} (op : AArch64.Op)
    (h : i.opcode = op.opcode) : Arch.aarch64.accessBits bits i = op.accessBits bits := by
  rw [Arch.accessBits, h]
  cases op <;> rfl

theorem AArch64.accessBits_storeOp {bits n : Nat} (isFloat : Bool) (h : 16 < n) :
    (storeOp n isFloat).accessBits bits = bits := by
  rw [storeOp]
  split_ifs <;> first | rfl | omega

theorem AArch64.accessBits_loadOp {bits n : Nat} (isFloat : Bool) (h : 16 < n) :
    (loadOp n isFloat).accessBits bits = bits := by
  rw [loadOp]
  split_ifs <;> first | rfl | omega

theorem Riscv.Op.accessBits_eq {i : Instruction} {bits : Nat} (op : Riscv.Op)
    (h : i.opcode = op.opcode) : Arch.riscv32.accessBits bits i = op.accessBits := by
  rw [Arch.accessBits, h]
  cases op <;> rfl

theorem Riscv.accessBits_storeOp {n : Nat} (h : 16 < n) : (storeOp n).accessBits = 32 := by
  rw [storeOp]
  split_ifs <;> first | rfl | omega

theorem Riscv.accessBits_loadOp {n : Nat} (h : 16 < n) : (loadOp n).accessBits = 32 := by
  rw [loadOp]
  split_ifs <;> first | rfl | omega

theorem Riscv.bits_of_get? {reg : RegId} {r : Register} (h : registers.get? reg = some r) :
    r.bits = 32 := by
  have hbits : ∀ r ∈ registers.file, r.bits = 32 := by
    decide +kernel
  exact hbits r (List.mem_of_getElem? h)

end Target

namespace Machine.Function

variable {a : Arch} {f g : Function}

/-- However the instruction is selected, it turns into one that enacts the effect. -/
def Acts (a : Arch) (i : Instruction) (e : StackEffect) : Prop :=
  ∃ op, i.opcode = .generic op ∧ ∀ site : Site, site.instruction = i →
    ∀ r, a.target.select site op = .ok r → r.rest = [] ∧ a.Enacts r.first e

theorem map_kind_widenRegisters (i : Instruction) :
    (AArch64.widenRegisters i).operands.map (·.kind) = i.operands.map (·.kind) := by
  rw [AArch64.widenRegisters, Instruction.operands_withOperands, List.map_map]
  refine List.map_congr_left fun o _ => ?_
  dsimp only [Function.comp_apply]
  split <;> rfl

theorem acts_reserve (a : Arch) (size : Nat) :
    Acts a (adjustStack a.target .sub size) (.move (some (-size))) := by
  refine ⟨.sub, rfl, ?_⟩
  rintro ⟨f, b, k, i, n⟩ rfl r h
  cases a with
  | aarch64 =>
    cases h
    exact ⟨rfl, Arch.stackEffect_decrement (AArch64.Op.subI.role_eq rfl) rfl⟩
  | riscv32 =>
    -- The constant form adds the inverse of the size.
    replace h : (do
        let negated ← Word.fitSigned (-size)
        return (⟨((adjustStack riscv32 .sub size).setOpcode Riscv.Op.addi.opcode).modifyOperand 2
          (·.setImmediate negated), []⟩ : Replacement)) = .ok r := h
    obtain ⟨negated, hnegated, h⟩ := bind_eq_ok.mp h
    cases h
    rw [Word.fitSigned] at hnegated
    split at hnegated
    · cases hnegated
      exact ⟨rfl, Arch.stackEffect_increment (Riscv.Op.addi.role_eq rfl) rfl⟩
    · cases hnegated

theorem acts_release (a : Arch) (size : Nat) :
    Acts a (adjustStack a.target .add size) (.move (some size)) := by
  refine ⟨.add, rfl, ?_⟩
  rintro ⟨f, b, k, i, n⟩ rfl r h
  cases a with
  | aarch64 =>
    cases h
    exact ⟨rfl, Arch.stackEffect_increment (AArch64.Op.addI.role_eq rfl) rfl⟩
  | riscv32 =>
    cases h
    exact ⟨rfl, Arch.stackEffect_increment (Riscv.Op.addi.role_eq rfl) rfl⟩

section

variable {o : Operand} {reg : RegId} (ho : o.kind = .physicalReg reg)
  (hwidth : ∀ r, a.target.registers.get? reg = some r → o.size = r.bits) (n : Int)
include ho hwidth

theorem acts_store : Acts a (.generic .store
    [o, .physicalReg a.target.registers.stack a.target.pointerType,
      .immediate n a.target.offsetType]) (.store reg n) := by
  refine ⟨.store, rfl, ?_⟩
  rintro ⟨f, b, k, i, m⟩ rfl r h
  obtain ⟨kind, ty, regClass⟩ := o
  cases ho
  cases a with
  | aarch64 =>
    cases h
    refine ⟨rfl, ?_, map_kind_widenRegisters _, fun r hr => ?_⟩
    · rw [(AArch64.storeOp _ _).role_eq rfl, AArch64.storeOp]
      split_ifs <;> rfl
    · rw [(AArch64.storeOp _ _).accessBits_eq rfl]
      exact AArch64.accessBits_storeOp _ (hwidth r hr ▸ Arch.aarch64.wide_of_get? hr)
  | riscv32 =>
    cases h
    refine ⟨rfl, ?_, rfl, fun r hr => ?_⟩
    · rw [(Riscv.storeOp _).role_eq rfl, Riscv.storeOp]
      split_ifs <;> rfl
    · rw [(Riscv.storeOp _).accessBits_eq rfl, Riscv.bits_of_get? hr]
      exact Riscv.accessBits_storeOp (hwidth r hr ▸ Arch.riscv32.wide_of_get? hr)

theorem acts_load : Acts a (.generic .load
    [o, .physicalReg a.target.registers.stack a.target.pointerType,
      .immediate n a.target.offsetType]) (.load reg n) := by
  refine ⟨.load, rfl, ?_⟩
  rintro ⟨f, b, k, i, m⟩ rfl r h
  obtain ⟨kind, ty, regClass⟩ := o
  cases ho
  cases a with
  | aarch64 =>
    cases h
    refine ⟨rfl, ?_, map_kind_widenRegisters _, fun r hr => ?_⟩
    · rw [(AArch64.loadOp _ _).role_eq rfl, AArch64.loadOp]
      split_ifs <;> rfl
    · rw [(AArch64.loadOp _ _).accessBits_eq rfl]
      exact AArch64.accessBits_loadOp _ (hwidth r hr ▸ Arch.aarch64.wide_of_get? hr)
  | riscv32 =>
    cases h
    refine ⟨rfl, ?_, rfl, fun r hr => ?_⟩
    · rw [(Riscv.loadOp _).role_eq rfl, Riscv.loadOp]
      split_ifs <;> rfl
    · rw [(Riscv.loadOp _).accessBits_eq rfl, Riscv.bits_of_get? hr]
      exact Riscv.accessBits_loadOp (hwidth r hr ▸ Arch.riscv32.wide_of_get? hr)

end

/-! ## Insertions -/

theorem modifyBlock_modifyBlock (f : Function) (b : Nat) (g h : Block → Block) :
    (f.modifyBlock b g).modifyBlock b h = f.modifyBlock b (h ∘ g) := by
  rw [modifyBlock, modifyBlock, modifyBlock]
  congr 1
  exact List.modify_modify_eq _ _ b f.blocks

theorem insertAt_eq_ok {b k : Nat} {i : Instruction} (h : f.insertAt b k i = .ok g) :
    ∃ block, f.blocks[b]? = some block ∧ k ≤ block.instructions.length := by
  rw [insertAt, changeBlock] at h
  split at h
  · next block hblock =>
    obtain ⟨block', hinsert, -⟩ := bind_eq_ok.mp h
    rw [Block.insertAt] at hinsert
    split at hinsert
    · next hk => exact ⟨block, hblock, hk⟩
    · cases hinsert
  · cases h

/-- Selected on the spot, instructions turn into as many that enact their effects. -/
theorem insertSelected_eq_ok {b k : Nat} {is : List Instruction} {es : List StackEffect}
    (hacts : List.Forall₂ (Acts a) is es) (h : insertSelected a.target b k is f = .ok g) :
    ∃ js, List.Forall₂ a.Enacts js es ∧
      g = f.modifyBlock b fun block => block.splice k 0 js := by
  induction hacts generalizing f k with
  | nil =>
    cases h
    refine ⟨[], .nil, ?_⟩
    have hsame : (fun block : Block => block.splice k 0 []) = id := by
      funext block
      simp [Block.splice]
    rw [hsame, modifyBlock, List.modify_id]
  | @cons i e is es hact _ ih =>
    rw [insertSelected] at h
    obtain ⟨f₁, hinsert, h⟩ := bind_eq_ok.mp h
    obtain ⟨⟨next, f₂⟩, hselect, h⟩ := bind_eq_ok.mp h
    obtain ⟨op, hop, hact⟩ := hact
    obtain ⟨block, hblock, hk⟩ := insertAt_eq_ok hinsert
    have hi := (replaceAt_insertAt hinsert []).1
    obtain ⟨new, hnext, hnew⟩ := selectAt_eq_ok hi hselect
    cases hnext
    rcases hnew with ⟨hselected, -⟩ | ⟨op', r, hop', hr, rfl⟩
    · simp [Instruction.isSelected, hop, Opcode.isSelected] at hselected
    · cases hop.symm.trans (Instruction.generic?_eq_some hop')
      obtain ⟨hrest, henacts⟩ := hact _ rfl r hr
      rw [hrest] at h
      obtain ⟨js, hjs, rfl⟩ := ih h
      refine ⟨r.first :: js, .cons henacts hjs, ?_⟩
      rw [(replaceAt_insertAt hinsert [r.first]).2, modifyBlock_modifyBlock]
      refine modifyBlock_congr fun block' hblock' => ?_
      cases hblock.symm.trans hblock'
      exact block.splice_splice hk 0 [r.first] js

/-- The block has code that enacts the effects put in at the position given for it, if one is
given. -/
def Receives (a : Arch) (es : List StackEffect) (places : List (Nat × Nat)) (b : Nat)
    (old new : Block) : Prop :=
  b ∉ places.map (·.1) ∧ new = old ∨
    ∃ k js, (b, k) ∈ places ∧ List.Forall₂ a.Enacts js es ∧ new = old.splice k 0 js

theorem getElem?_modifyBlock (f : Function) (b c : Nat) (change : Block → Block) :
    (f.modifyBlock b change).blocks[c]? =
      f.blocks[c]?.map fun block => if b = c then change block else block := by
  rw [modifyBlock, List.getElem?_modify]
  rfl

/-- Insertions in different blocks do not meet. -/
theorem insertAll_eq_ok {is : List Instruction} {es : List StackEffect}
    (hacts : List.Forall₂ (Acts a) is es) {places : List (Nat × Nat)}
    (hnodup : (places.map (·.1)).Nodup)
    (h : places.foldlM (fun f (b, i) => insertSelected a.target b i is f) f = .ok g) :
    g = { f with blocks := g.blocks } ∧ g.blocks.length = f.blocks.length ∧
      ∀ c new, g.blocks[c]? = some new →
        ∃ old, f.blocks[c]? = some old ∧ Receives a es places c old new := by
  induction places generalizing f with
  | nil =>
    cases pure_eq_ok.mp h
    exact ⟨rfl, rfl, fun c new hnew => ⟨new, hnew, .inl ⟨by simp, rfl⟩⟩⟩
  | cons place places ih =>
    obtain ⟨b, k⟩ := place
    rw [List.foldlM_cons] at h
    obtain ⟨f₁, hfirst, h⟩ := bind_eq_ok.mp h
    obtain ⟨js, hjs, rfl⟩ := insertSelected_eq_ok hacts hfirst
    obtain ⟨hb, hnodup⟩ := List.nodup_cons.mp hnodup
    obtain ⟨hg, hlength, hrest⟩ := ih hnodup h
    refine ⟨hg, hlength.trans (List.length_modify ..), fun c new hnew => ?_⟩
    obtain ⟨mid, hmid, hreceives⟩ := hrest c new hnew
    rw [getElem?_modifyBlock] at hmid
    obtain ⟨old, hold, hmid⟩ := Option.map_eq_some_iff.mp hmid
    refine ⟨old, hold, ?_⟩
    by_cases hbc : b = c
    · subst hbc
      rw [if_pos rfl] at hmid
      rcases hreceives with ⟨-, rfl⟩ | ⟨k', js', hmem, -⟩
      · exact .inr ⟨k, js, by simp, hjs, hmid.symm⟩
      · exact absurd (List.mem_map_of_mem (f := (·.1)) hmem) hb
    · rw [if_neg hbc] at hmid
      subst hmid
      rcases hreceives with ⟨hmem, rfl⟩ | ⟨k', js', hmem, hjs', rfl⟩
      · exact .inl ⟨by simpa [Ne.symm hbc] using hmem, rfl⟩
      · exact .inr ⟨k', js', by simp [hmem], hjs', rfl⟩

/-! ## Blocks with frame code -/

/-- Control goes on behind the instruction, and nowhere else. -/
def Straight (a : Arch) (i : Instruction) : Prop := (a.role i).transfers = false ∧ a.role i ≠ .ret

/-- Frame code around a body that leaves the stack pointer alone: in front of it in the first block,
and in front of its first return, if it has one. -/
structure IsFramed (a : Arch) (size : Nat) (places : List (RegId × Int)) (isFirst : Bool)
    (pre body tail : List Instruction) : Prop where
  enters : ∀ v : StackView, v.run a pre = if isFirst then v.enter size places else v
  straight : ∀ i ∈ pre, Straight a i
  steady : ∀ i ∈ body, i.Steady a ∧ a.role i ≠ .ret
  leaves : tail = [] ∨ ∃ exit ret rest, tail = exit ++ ret :: rest ∧
    (∀ v : StackView, v.run a exit = v.leave size places) ∧ (∀ i ∈ exit, Straight a i) ∧
    a.role ret = .ret ∧
    (places ≠ [] → List.Forall₂ a.Performs exit (StackView.leaveEffects size places))
  stores : places ≠ [] → List.Forall₂ a.Performs pre
    (if isFirst then StackView.enterEffects size places else [])

/-- The function has a frame of `size` bytes, with the registers to save at `places` in it. -/
structure Framed (a : Arch) (size : Nat) (places : List (RegId × Int)) (f : Function) : Prop where
  saved : f.registersToSave a.target = places.map (·.1)
  size_eq_zero : f.frame.size = .ok 0 ↔ size = 0
  places_eq_nil : size = 0 → places = []
  blocks : ∀ b block, f.blocks[b]? = some block → ∃ pre body tail,
    block.instructions = pre ++ (body ++ tail) ∧ IsFramed a size places (b == 0) pre body tail

theorem straight_of_performs {is : List Instruction} {es : List StackEffect}
    (h : List.Forall₂ a.Performs is es) (hes : ∀ e ∈ es, e ≠ .none ∧ e ≠ .move none) :
    ∀ i ∈ is, Straight a i := by
  intro i hi
  exact Arch.straight_of_stackEffect rfl
    (hes _ (Arch.map_stackEffect h ▸ List.mem_map_of_mem hi))

theorem isReturn_iff {i : Instruction} (hi : i.Steady a) (hselected : i.isSelected) :
    i.isReturn ↔ a.role i = .ret := by
  rw [hi.returns]
  refine or_iff_right fun hcode => ?_
  simp [Instruction.isSelected, hcode, Opcode.isSelected] at hselected

/-- A block is a body without returns, and then its first return and what is behind it. -/
theorem exists_body {b : Block} (hb : ∀ i ∈ b.instructions, i.Steady a ∧ i.isSelected) :
    ∃ body tail, b.instructions = body ++ tail ∧ (∀ i ∈ body, i.Steady a ∧ a.role i ≠ .ret) ∧
      (b.returnIndex? = none ∧ tail = [] ∨
        b.returnIndex? = some body.length ∧ ∃ ret rest, tail = ret :: rest ∧ a.role ret = .ret) := by
  have hrole : ∀ i ∈ b.instructions, i.isReturn ↔ a.role i = .ret :=
    fun i hi => isReturn_iff (hb i hi).1 (hb i hi).2
  cases hindex : b.returnIndex? with
  | none =>
    refine ⟨b.instructions, [], by simp, fun i hi => ⟨(hb i hi).1, fun hret => ?_⟩, .inl ⟨rfl, rfl⟩⟩
    have hnone := List.findIdx?_eq_none_iff.mp hindex i hi
    rw [(hrole i hi).mpr hret] at hnone
    cases hnone
  | some k =>
    obtain ⟨hk, hret, hbefore⟩ := List.findIdx?_eq_some_iff_getElem.mp hindex
    refine ⟨b.instructions.take k, b.instructions.drop k, by simp, fun i hi => ?_,
      .inr ⟨by simp [Nat.le_of_lt hk], b.instructions[k], b.instructions.drop (k + 1),
        List.drop_eq_getElem_cons hk, (hrole _ (List.getElem_mem hk)).mp hret⟩⟩
    have hmem := List.mem_of_mem_take hi
    refine ⟨(hb i hmem).1, fun hret => ?_⟩
    obtain ⟨j, hj, rfl⟩ := List.mem_take_iff_getElem.mp hi
    exact hbefore j (by omega) ((hrole _ hmem).mpr hret)

theorem mem_returns {c k : Nat} :
    (c, k) ∈ f.returns ↔ ∃ block, f.blocks[c]? = some block ∧ block.returnIndex? = some k := by
  simp only [returns, List.mem_filterMap, Prod.exists, List.mem_zipIdx_iff_getElem?,
    Option.map_eq_some_iff, Prod.mk.injEq]
  constructor
  · rintro ⟨block, b, hblock, k', hk, rfl, rfl⟩
    exact ⟨block, hblock, hk⟩
  · rintro ⟨block, hblock, hk⟩
    exact ⟨block, c, hblock, k, hk, rfl, rfl⟩

theorem nodup_returns (f : Function) : (f.returns.map (·.1)).Nodup := by
  rw [List.Nodup, List.pairwise_map, returns]
  have hindex : f.blocks.zipIdx.Pairwise fun x y => x.2 ≠ y.2 := by
    rw [← List.pairwise_map (f := Prod.snd) (R := (· ≠ ·)), List.zipIdx_map_snd]
    exact List.nodup_range'
  refine List.Pairwise.filterMap _ (fun x y hxy p hp q hq => ?_) hindex
  obtain ⟨_, -, rfl⟩ := Option.map_eq_some_iff.mp hp
  obtain ⟨_, -, rfl⟩ := Option.map_eq_some_iff.mp hq
  exact hxy

theorem isFramed_of_receives {size : Nat} {places : List (RegId × Int)} {c : Nat} {old new : Block}
    (hf : f.All fun i => i.Steady a ∧ i.isSelected)
    (hplaces : ∀ reg ∈ places.map (·.1), reg ≠ a.target.registers.stack)
    (hold : f.blocks[c]? = some old)
    (h : Receives a (StackView.leaveEffects size places) f.returns.reverse c old new) :
    ∃ body tail, new.instructions = body ++ tail ∧ IsFramed a size places false [] body tail := by
  obtain ⟨body, tail, hcode, hbody, htail⟩ := exists_body (b := old) fun i hi =>
    hf i (mem_instructions.mpr ⟨old, List.mem_of_getElem? hold, hi⟩)
  have hreturns : ∀ k, (c, k) ∈ f.returns.reverse ↔ old.returnIndex? = some k := by
    intro k
    rw [List.mem_reverse, mem_returns]
    exact ⟨fun ⟨_, hblock, hk⟩ => Option.some.inj (hold.symm.trans hblock) ▸ hk,
      fun hk => ⟨old, hold, hk⟩⟩
  rcases htail with ⟨hnone, rfl⟩ | ⟨hindex, ret, rest, rfl, hret⟩
  · refine ⟨body, [], ?_, ⟨fun v => rfl, by simp, hbody, .inl rfl, fun _ => .nil⟩⟩
    rcases h with ⟨-, rfl⟩ | ⟨k, js, hmem, -⟩
    · exact hcode
    · rw [hreturns, hnone] at hmem
      cases hmem
  · rcases h with ⟨hmem, -⟩ | ⟨k, js, hmem, hjs, rfl⟩
    · exact absurd (List.mem_map_of_mem (f := (·.1)) ((hreturns _).mpr hindex)) hmem
    · rw [hreturns, hindex] at hmem
      cases hmem
      replace hjs := Arch.performs_of_enacts hjs fun e he reg n hn =>
        hplaces reg (StackView.mem_places_of_leaveEffects he hn)
      refine ⟨body, js ++ ret :: rest, ?_, ⟨fun v => rfl, by simp, hbody,
        .inr ⟨js, ret, rest, rfl, fun v => ?_, straight_of_performs hjs ?_, hret, fun _ => hjs⟩,
        fun _ => .nil⟩⟩
      · simp [Block.splice, hcode]
      · rw [StackView.run_eq_foldl_apply, Arch.map_stackEffect hjs]
        rfl
      · exact StackView.known_of_mem_leaveEffects

/-! ## Frames -/

theorem alignTo_eq_zero {value alignment aligned : Nat}
    (h : Word.alignTo value alignment = .ok aligned) : aligned = 0 ↔ value = 0 := by
  rw [Word.alignTo] at h
  split at h
  · cases h
    rfl
  · next hne =>
    rw [Word.fit] at h
    split at h
    · cases h
      have hpos : 0 < alignment := Nat.pos_of_ne_zero hne
      rw [Nat.mul_eq_zero, Nat.div_eq_zero_iff]
      omega
    · cases h

theorem le_foldr_size (objects : List FrameObject) (n : Nat) :
    n ≤ objects.foldr (fun o total => o.size + total) n := by
  induction objects with
  | nil => exact Nat.le_refl n
  | cons o objects ih => exact Nat.le_trans ih (Nat.le_add_left _ _)

theorem size_insertAll_ne_zero (saves : List (Saved × Nat)) (frame : Frame) (hsaves : saves ≠ []) :
    (saves.foldl (fun frame s => frame.insert s.1.slot s.2) frame).size ≠ .ok 0 := by
  obtain ⟨saves, last, rfl⟩ := (List.eq_nil_or_concat saves).resolve_left hsaves
  rw [List.concat_eq_append, List.foldl_append, Frame.size, Word.fit]
  split
  · intro hsize
    have hzero := Except.ok.inj hsize
    rw [List.foldl_cons, List.foldl_nil, Frame.insert, List.foldr_append] at hzero
    have hle := le_foldr_size
      (saves.foldl (fun frame s => frame.insert s.1.slot s.2) frame).objects
      (max last.2 Frame.minObjectSize)
    have hmin : 4 ≤ max last.2 Frame.minObjectSize := Nat.le_max_right _ _
    exact absurd (Nat.le_trans hmin (Nat.le_trans hle (Nat.le_of_eq hzero))) (by decide)
  · rintro ⟨⟩

/-- Where a saved register is, in a frame that has its slot. -/
def placeOf (frame : Frame) (s : Saved) : Int :=
  match frame.position? s.slot with
  | .ok (some position) => position
  | _ => 0

theorem accessSaved_eq_ok {t : Target} {frame : Frame} {op : GenericOp} {s : Saved}
    {i : Instruction} (h : accessSaved t frame op s = .ok i) :
    i = .generic op [s.operand, .physicalReg t.registers.stack t.pointerType,
      .immediate (placeOf frame s) t.offsetType] := by
  obtain ⟨position?, hposition, h⟩ := bind_eq_ok.mp h
  obtain ⟨position, hsome, h⟩ := bind_eq_ok.mp h
  cases h
  rw [orFail_eq_ok] at hsome
  subst hsome
  rw [placeOf, hposition]

/-- The places of the registers to save. -/
def placesOf (t : Target) (f : Function) (frame : Frame) : List (RegId × Int) :=
  (f.registersToSave t).zipIdx.map fun (reg, n) => (reg, placeOf frame (savedAt t reg n).1)

theorem map_fst_placesOf (t : Target) (f : Function) (frame : Frame) :
    (placesOf t f frame).map (·.1) = f.registersToSave t := by
  rw [placesOf, List.map_map]
  exact List.zipIdx_map_fst 0 _

theorem size_savedAt {t : Target} {reg : RegId} (n : Nat) {r : Target.Register}
    (h : t.registers.get? reg = some r) : (savedAt t reg n).1.operand.size = r.bits := by
  simp only [savedAt, h]
  cases r.isFloat <;> rfl

theorem mem_registersToSave_of_enterEffects {t : Target} {size : Nat} {frame : Frame}
    {e : StackEffect} {reg : RegId} {n : Int}
    (he : e ∈ StackView.enterEffects size (placesOf t f frame))
    (hreg : e = .store reg n ∨ e = .load reg n) : reg ∈ f.registersToSave t :=
  map_fst_placesOf t f frame ▸ StackView.mem_places_of_enterEffects he hreg

theorem mem_registersToSave_of_leaveEffects {t : Target} {size : Nat} {frame : Frame}
    {e : StackEffect} {reg : RegId} {n : Int}
    (he : e ∈ StackView.leaveEffects size (placesOf t f frame))
    (hreg : e = .store reg n ∨ e = .load reg n) : reg ∈ f.registersToSave t :=
  map_fst_placesOf t f frame ▸ StackView.mem_places_of_leaveEffects he hreg

theorem acts_accessSaved {frame : Frame} {op : GenericOp} {effect : RegId → Int → StackEffect}
    (hop : ∀ (o : Operand) (reg : RegId), o.kind = .physicalReg reg →
      (∀ r, a.target.registers.get? reg = some r → o.size = r.bits) → ∀ n, Acts a (.generic op
        [o, .physicalReg a.target.registers.stack a.target.pointerType,
          .immediate n a.target.offsetType]) (effect reg n))
    {entries : List (RegId × Nat)} {is : List Instruction}
    (h : (entries.map fun e => (savedAt a.target e.1 e.2).1).mapM
      (accessSaved a.target frame op) = .ok is) :
    List.Forall₂ (Acts a) is (entries.map fun e =>
      effect e.1 (placeOf frame (savedAt a.target e.1 e.2).1)) := by
  have haccess := List.forall₂_map_left_iff.mp (forall₂_of_mapM_eq_ok h)
  rw [List.forall₂_map_right_iff]
  refine haccess.flip.imp ?_
  rintro i ⟨reg, n⟩ hi
  rw [accessSaved_eq_ok hi]
  exact hop _ reg rfl (fun r => size_savedAt n) _

theorem framed_self (hf : f.All fun i => i.Steady a ∧ i.isSelected)
    (hsize : f.frame.size = .ok 0) (hsave : f.registersToSave a.target = []) :
    Framed a 0 [] f := by
  refine ⟨hsave, iff_of_true hsize rfl, fun _ => rfl, fun b block hblock => ?_⟩
  obtain ⟨body, tail, hcode, hbody, htail⟩ := exists_body (b := block) fun i hi =>
    hf i (mem_instructions.mpr ⟨block, List.mem_of_getElem? hblock, hi⟩)
  have hmove : ∀ v : StackView, v.apply (.move (some 0)) = v := by
    rintro ⟨pointer, accesses⟩
    cases pointer <;> simp [StackView.apply]
  refine ⟨[], body, tail, hcode, ⟨fun v => ?_, by simp, hbody, ?_, by simp⟩⟩
  · split
    · exact (hmove v).symm
    · rfl
  · rcases htail with ⟨-, rfl⟩ | ⟨-, ret, rest, rfl, hret⟩
    · exact .inl rfl
    · exact .inr ⟨[], ret, rest, rfl, fun v => (hmove v).symm, by simp, hret, by simp⟩

theorem framed_of_inserted {size : Nat} {places : List (RegId × Int)} {f₁ f₂ : Function}
    {entry leave : List Instruction} (hf : f.All fun i => i.Steady a ∧ i.isSelected)
    (hplaces : ∀ reg ∈ places.map (·.1), reg ≠ a.target.registers.stack)
    (hf₁ : f₁.blocks = f.blocks)
    (hentry : List.Forall₂ (Acts a) entry (StackView.enterEffects size places))
    (hleave : List.Forall₂ (Acts a) leave (StackView.leaveEffects size places))
    (hreturns : f.returns.reverse.foldlM
      (fun f (b, i) => insertSelected a.target b i leave f) f₁ = .ok f₂)
    (h : insertSelected a.target 0 0 entry f₂ = .ok g) :
    g = { f₁ with blocks := g.blocks } ∧ ∀ b block, g.blocks[b]? = some block →
      ∃ pre body tail, block.instructions = pre ++ (body ++ tail) ∧
        IsFramed a size places (b == 0) pre body tail := by
  have hnodup : (f.returns.reverse.map (·.1)).Nodup := by
    rw [List.map_reverse, List.nodup_reverse]
    exact f.nodup_returns
  obtain ⟨hf₂, -, hreceives⟩ := insertAll_eq_ok hleave hnodup hreturns
  obtain ⟨js, hjs, rfl⟩ := insertSelected_eq_ok hentry h
  replace hjs := Arch.performs_of_enacts hjs fun e he reg n hn =>
    hplaces reg (StackView.mem_places_of_enterEffects he hn)
  refine ⟨?_, fun b block hblock => ?_⟩
  · rw [hf₂]
    rfl
  · rw [getElem?_modifyBlock] at hblock
    obtain ⟨mid, hmid, rfl⟩ := Option.map_eq_some_iff.mp hblock
    obtain ⟨old, hold, hmid⟩ := hreceives b mid hmid
    rw [hf₁] at hold
    obtain ⟨body, tail, hcode, hframed⟩ := isFramed_of_receives hf hplaces hold hmid
    by_cases hb : 0 = b
    · subst hb
      refine ⟨js, body, tail, by simp [Block.splice, hcode], ⟨fun v => ?_,
        straight_of_performs hjs StackView.known_of_mem_enterEffects, hframed.steady,
        hframed.leaves, fun _ => hjs⟩⟩
      rw [StackView.run_eq_foldl_apply, Arch.map_stackEffect hjs]
      rfl
    · rw [if_neg hb]
      have hfirst : (b == 0) = false := by simpa using Ne.symm hb
      exact ⟨[], body, tail, hcode, hfirst ▸ hframed⟩

/-- A function gets no frame code, or code that enacts the effects of a frame of `size` bytes. -/
theorem insertFrameCode_cases (h : f.insertFrameCode a.target = .ok g) :
    g = f ∧ f.frame.objects = [] ∧ f.registersToSave a.target = [] ∨
      ∃ bytes size entry leave f₂, (f.savingFrame a.target).size = .ok bytes ∧
        Word.alignTo bytes a.target.convention.stackAlignment = .ok size ∧ size ≤ maxFrameSize ∧
        f.returns ≠ [] ∧
        List.Forall₂ (Acts a) entry
          (StackView.enterEffects size (placesOf a.target f (f.savingFrame a.target))) ∧
        List.Forall₂ (Acts a) leave
          (StackView.leaveEffects size (placesOf a.target f (f.savingFrame a.target))) ∧
        f.returns.reverse.foldlM (fun f (b, i) => insertSelected a.target b i leave f)
          { f with frame := f.savingFrame a.target } = .ok f₂ ∧
        insertSelected a.target 0 0 entry f₂ = .ok g := by
  rcases insertFrameCode_eq_ok h with hnone |
    ⟨bytes, size, stores, loads, f₂, hne, hbytes, hsize, hsmall, hstores, hloads, hreturns, h⟩
  · exact .inl hnone
  · rw [saved, ← List.map_reverse] at hloads
    refine .inr ⟨bytes, size, _, _, f₂, hbytes, hsize, hsmall, hne, .cons (acts_reserve a size) ?_,
      List.rel_append ?_ (.cons (acts_release a size) .nil), hreturns, h⟩
    · rw [placesOf, List.map_map]
      exact acts_accessSaved (fun _ _ => acts_store) hstores
    · rw [placesOf, ← List.map_reverse, List.map_map]
      exact acts_accessSaved (fun _ _ => acts_load) hloads

/-- **A function with frame code** has it in front of its first block and before the first return of
every block, and its bodies leave the stack pointer alone. -/
theorem framed_insertFrameCode (hf : f.All fun i => i.Steady a ∧ i.isSelected)
    (hsave : ∀ reg ∈ f.registersToSave a.target, reg ≠ a.target.registers.stack)
    (h : f.insertFrameCode a.target = .ok g) : ∃ size places, Framed a size places g := by
  rcases insertFrameCode_cases h with ⟨rfl, hempty, hnone⟩ |
    ⟨bytes, size, entry, leave, f₂, hbytes, hsize, -, -, hentry, hleave, hreturns, h⟩
  · refine ⟨0, [], framed_self hf ?_ hnone⟩
    rw [Frame.size, hempty]
    rfl
  · rw [← map_fst_placesOf a.target f (f.savingFrame a.target)] at hsave
    have hsame : ({ f with frame := f.savingFrame a.target } : Function).blocks = f.blocks := rfl
    obtain ⟨hg, hblocks⟩ := framed_of_inserted hf hsave hsame hentry hleave hreturns h
    have hzero : (f.savingFrame a.target).size = .ok 0 ↔ size = 0 := by
      rw [alignTo_eq_zero hsize, hbytes]
      exact ⟨Except.ok.inj, fun heq => heq ▸ rfl⟩
    refine ⟨size, _, ?_, ?_, fun hsize => ?_, hblocks⟩
    · rw [hg, map_fst_placesOf]
      rfl
    · rw [hg]
      exact hzero
    · by_contra hne
      refine size_insertAll_ne_zero _ f.frame (fun hnil => hne ?_) (hzero.mpr hsize)
      rw [placesOf, List.map_eq_nil_iff]
      exact List.map_eq_nil_iff.mp hnil

end Machine.Function

end Retarget
