import Mathlib.Data.Int.Notation
import Retarget.Proofs.Encoding.Offsets
import Retarget.Proofs.Encoding.Widths

/-!
# Constants up to allocation

The second source of an operation may be a constant if the operation has room for it
(`Arch.Takes`).  Legalization sees to that, and together with the widths of operands it is all that
selection asks for (`Instruction.Ready`).  Allocation keeps legal code ready, and adds the positions
of frame objects, which are in a frame within the limit (`ready_allocateRegisters`).
-/

namespace Retarget

open Machine Target

/-- The operation, on values of `bits` bits, has room for the constant. -/
def Arch.Takes (a : Arch) (bits : Nat) (n : Int) (op : GenericOp) : Prop :=
  match a, op with
  | _, .stackAddress => 0 ≤ n ∧ n ≤ Function.maxFrameSize
  | aarch64, .add | aarch64, .sub | aarch64, .cmp => 0 ≤ n ∧ n ≤ 4095
  | aarch64, .and | aarch64, .or | aarch64, .xor => AArch64.isLogicalImmediate n bits
  | aarch64, .lsl | aarch64, .lsr => 0 ≤ n ∧ n < max bits 32
  | riscv32, .sub => -2047 ≤ n ∧ n ≤ 2048
  | riscv32, .add | riscv32, .and | riscv32, .or | riscv32, .xor | riscv32, .cmp =>
    -2048 ≤ n ∧ n ≤ 2047
  | riscv32, .lsl | riscv32, .lsr => 0 ≤ n ∧ n ≤ 31
  | _, _ => True

namespace Machine

/-- The instruction is not native yet, unless it is part of the address of a symbol. -/
def Instruction.Unselected (a : Arch) (i : Instruction) : Prop :=
  i.generic? = none → a = .aarch64 ∧ i.opcode = AArch64.Op.adrp.opcode

/-- Operands have the widths that the operation asks for, and it has room for its constant. -/
structure Instruction.Ready (a : Arch) (i : Instruction) : Prop where
  unselected : i.Unselected a
  sized : i.Sized a.target
  constant : ∀ op, i.generic? = some op → ∀ n, i.secondImmediate? = some n →
    a.Takes (AArch64.destWidth i) n op

namespace Instruction

variable {a : Arch} {t : Target} {i j : Instruction}

theorem unselected_of_generic {op : GenericOp} (h : i.generic? = some op) : i.Unselected a := by
  intro hnone
  rw [h] at hnone
  cases hnone

theorem operand?_of_forall₂ {R : Operand → Operand → Prop}
    (h : List.Forall₂ R i.operands j.operands) (k : Nat) :
    i.operand? k = none ∧ j.operand? k = none ∨
      ∃ o o', i.operand? k = some o ∧ j.operand? k = some o' ∧ R o o' := by
  rw [operand?, operand?]
  generalize i.operands = os at h
  generalize j.operands = os' at h
  induction h generalizing k with
  | nil => exact .inl ⟨rfl, rfl⟩
  | @cons o o' _ _ hfirst _ ih =>
    cases k with
    | zero => exact .inr ⟨o, o', rfl, rfl, hfirst⟩
    | succ k => exact ih k

theorem destWidth_keeps (h : List.Forall₂ (Operand.Keeps t) i.operands j.operands) :
    AArch64.destWidth j = AArch64.destWidth i := by
  rw [AArch64.destWidth, AArch64.destWidth]
  rcases operand?_of_forall₂ h 0 with ⟨ho, ho'⟩ | ⟨o, o', ho, ho', hkeeps⟩
  · rw [ho, ho']
  · rw [ho, ho']
    exact hkeeps.size

theorem secondImmediate?_keeps (h : List.Forall₂ (Operand.Keeps t) i.operands j.operands) :
    j.secondImmediate? = i.secondImmediate? := by
  rw [secondImmediate?, secondImmediate?]
  rcases operand?_of_forall₂ h 2 with ⟨ho, ho'⟩ | ⟨o, o', ho, ho', hkeeps⟩
  · rw [ho, ho']
  · rw [ho, ho']
    exact hkeeps.immediate?

theorem Ready.keeps (hi : i.Ready a) (hcode : j.opcode = i.opcode)
    (hoperands : List.Forall₂ (Operand.Keeps a.target) i.operands j.operands) : j.Ready a := by
  have hop : j.generic? = i.generic? := congrArg Opcode.generic? hcode
  refine ⟨fun hnone => ?_, hi.sized.keeps hop fun k o' ho' => ?_, fun op hj n hn => ?_⟩
  · obtain ⟨ha, hadrp⟩ := hi.unselected (hop ▸ hnone)
    exact ⟨ha, hcode.trans hadrp⟩
  · rcases operand?_of_forall₂ hoperands k with ⟨-, hnone⟩ | ⟨o, o'', ho, ho'', hkeeps⟩
    · cases ho'.symm.trans hnone
    · cases ho'.symm.trans ho''
      exact ⟨o, ho, hkeeps⟩
  · rw [destWidth_keeps hoperands]
    exact hi.constant op (hop ▸ hj) n (secondImmediate?_keeps hoperands ▸ hn)

end Instruction

theorem Instruction.Recast.keeps {t : Target} {i j : Instruction} (h : i.Recast j) :
    List.Forall₂ (Operand.Keeps t) i.operands j.operands := by
  refine h.operands.imp ?_
  rintro o o' ⟨hkind, hty⟩
  refine ⟨by rw [Operand.size, hty, Operand.size], by rw [Operand.offset?, hkind, Operand.offset?],
    by rw [Operand.immediate?, hkind, Operand.immediate?], fun ho => ⟨?_, fun r hr => ?_⟩⟩
  · rw [Operand.isRegLike, hkind]
    exact ho.isRegLike
  · rw [Operand.size, hty]
    exact ho.fits r (hkind ▸ hr)

/-! ## Legal code -/

theorem le_of_isUint {n : Int} (h : Word.isUint n 12) : 0 ≤ n ∧ n ≤ 4095 := by
  simp only [Word.isUint, Bool.and_eq_true, Bool.or_eq_true, decide_eq_true_eq] at h
  have hmodulus : (Word.modulus 12 : Int) = 4096 := rfl
  omega

theorem le_of_fitsSigned {n : Int} (h : Word.fitsSigned n 12) : -2048 ≤ n ∧ n ≤ 2047 := by
  simp only [Word.fitsSigned, Bool.and_eq_true, Bool.or_eq_true, decide_eq_true_eq] at h
  have hmodulus : (Word.modulus (12 - 1) : Int) = 2048 := rfl
  omega

theorem le_of_negate? {n : Int} (h : (Word.negate? n).any (Word.fitsSigned · 12)) :
    -2047 ≤ n ∧ n ≤ 2048 := by
  rw [Word.negate?] at h
  split at h
  · cases h
  · have hbounds := le_of_fitsSigned h
    omega

namespace Function

variable {a : Arch} {t : Target} {f g : Function} {b k : Nat} {i j : Instruction}
  {slots : List Slot}

/-- **A legal instruction has room for its constant.** -/
theorem takes_of_isLegal (hi : f.instruction? b k = some i) (h : a.target.isLegal f b k)
    (hshaped : i.Shaped a.target slots) {op : GenericOp} (hop : i.generic? = some op) {n : Int}
    (hn : i.secondImmediate? = some n) : a.Takes (AArch64.destWidth i) n op := by
  have haddress : op ≠ .stackAddress := by
    rintro rfl
    have hlayout := hshaped.layout_mem (Instruction.generic?_eq_some hop)
    simp only [GenericOp.layouts, List.mem_singleton] at hlayout
    obtain ⟨o₁, o₂, hops, -⟩ := Instruction.operands_of_layout₂ hlayout
    simp [Instruction.secondImmediate?, Instruction.operand?, hops] at hn
  cases a with
  | aarch64 =>
    replace h : AArch64.isLegal f b k := h
    simp only [AArch64.isLegal, hi, hop, hn] at h
    split at h
    · cases h
    · cases op with
      | add | sub | cmp => exact le_of_isUint h
      | and | or | xor => exact h
      | lsl | lsr =>
        simp only [Option.all_some, Bool.and_eq_true, decide_eq_true_eq] at h
        exact ⟨h.1, by omega⟩
      | stackAddress => exact absurd rfl haddress
      | _ => trivial
  | riscv32 =>
    replace h : Riscv.isLegal f b k := h
    simp only [Riscv.isLegal, hi, hop, hn] at h
    split at h
    · cases h
    · cases op with
      | add | and | or | xor => exact le_of_fitsSigned h
      | cmp => exact le_of_fitsSigned (Bool.and_eq_true_iff.mp h).2
      | sub => exact le_of_negate? h
      | lsl | lsr =>
        simp only [Option.all_some, Bool.and_eq_true, decide_eq_true_eq] at h
        exact ⟨h.1, by omega⟩
      | stackAddress => exact absurd rfl haddress
      | _ => trivial

theorem unselected_legalize (hf : f.All (·.Unselected a)) (h : f.legalize a.target = .ok g) :
    g.All (·.Unselected a) :=
  .legalize (fun hrewrite _ _ hj => hrewrite.native_cases hj) (fun _ _ _ => nofun) hf h

/-- **Legalization makes code ready** where the module computes with words. -/
theorem ready_legalize {m : Ir.Module} (h : a.target.ProducesFrom m f) (hm : m.WordTyped)
    (hlegalize : f.legalize a.target = .ok g) : g.All (·.Ready a) := by
  have hshaped := h.produces.shaped
  have hkept := Function.shaped_legalize hshaped hlegalize
  intro i hi
  obtain ⟨b, k, hget⟩ := exists_instruction?_of_mem hi
  have hunselected : f.All (·.Unselected a) := fun i hi => by
    obtain ⟨op, hcode, -⟩ := (h.produces.plain i hi).form
    exact Instruction.unselected_of_generic (congrArg Opcode.generic? hcode)
  refine ⟨unselected_legalize hunselected hlegalize i hi,
    sized_legalize (sized_of_producesFrom h hm) hlegalize i hi, fun op hop n hn => ?_⟩
  exact takes_of_isLegal hget (isLegal_legalize (fun _ => tidy_of_shaped hshaped) hlegalize b k)
    (hkept i hi) hop hn

theorem ready_selectClasses (hf : f.All (·.Ready a)) :
    (f.selectClasses a.target).All (·.Ready a) := by
  intro j hj
  obtain ⟨before, after, hsplit⟩ := List.append_of_mem hj
  have hrecast := forall₂_instructions (recast_selectClasses a.target f)
  rw [show (f.selectClasses a.target).blocks.flatMap (·.instructions) = _ from hsplit] at hrecast
  obtain ⟨is, i, is', heq, -, hi, -⟩ := exists_cons_of_forall₂_cons hrecast
  refine (hf i ?_).keeps hi.opcode hi.keeps
  show i ∈ f.blocks.flatMap (·.instructions)
  rw [heq]
  simp

/-! ## Allocation -/

section

variable {alloc : Allocation} {assigned : List (RegId × RegId)}

theorem keeps_physical {o o' : Operand} {root : RegId} (hroot : root ∈ t.homes)
    (ho : o.isVirtual ∨ o.isParameter) (hty : o'.ty = o.ty)
    (hkind : o'.kind = .physicalReg (t.registers.withWidth root o.size)) : o.Keeps t o' := by
  obtain ⟨kind, ty, regClass⟩ := o
  obtain ⟨kind', ty', regClass'⟩ := o'
  cases hty
  cases hkind
  cases kind with
  | virtualReg id | parameter id =>
    refine ⟨rfl, rfl, rfl, fun _ => ⟨rfl, ?_⟩⟩
    rintro _ ⟨⟩
    exact ⟨root, hroot, rfl⟩
  | _ => simp [Operand.isVirtual, Operand.isParameter] at ho

theorem ready_moveReturn {home : Option RegId} (hi : i.Ready a)
    (hhome : ∀ root, home = some root →
      root ∈ a.target.homes ∧ ∃ id ty, returned? i = some (id, ty)) :
    ∀ j ∈ moveReturn a.target i home, j.Ready a := by
  unfold moveReturn
  split
  · next root value hvalue =>
    obtain ⟨hroot, id, ty, hreturned⟩ := hhome root rfl
    obtain ⟨-, first, rest, hoperands, hkind, -⟩ := returned?_eq_some hreturned
    have hfirst : first = value := by
      rw [Instruction.operand?, hoperands] at hvalue
      exact Option.some.inj hvalue
    subst hfirst
    have hkeeps : first.Keeps a.target (.physicalReg
        (a.target.registers.withWidth root first.size) first.ty) :=
      keeps_physical hroot hkind rfl rfl
    simp only [List.forall_mem_cons, List.not_mem_nil, false_implies, implies_true, and_true]
    refine ⟨⟨Instruction.unselected_of_generic rfl,
      Instruction.sized_of_not_isSpecial _ rfl ?_ ?_, ?_⟩, hi.keeps rfl ?_⟩
    · split <;> rfl
    · rintro - _ ⟨⟩
      exact ⟨rfl, by rintro _ ⟨⟩; exact ⟨root, hroot, rfl⟩⟩
    · rintro op - n ⟨⟩
    · rw [Instruction.operands_replaceOperand, hoperands]
      exact .cons hkeeps (List.forall₂_same.mpr fun o _ => .refl o)
  · simpa using hi

theorem frame_allocateRegisters (h : f.allocateRegisters a.target = .ok g) : g.frame = f.frame := by
  obtain ⟨alloc, f', blocks, hassign, rfl, -⟩ := exists_placed_of_allocateRegisters h
  show f'.frame = f.frame
  exact frame_assignRegisters hassign

theorem ready_assignRegisters (hf : f.All (·.Ready a))
    (h : f.assignRegisters a.target = .ok (alloc, g)) : g.All (·.Ready a) := by
  obtain ⟨params, bound, g', s, -, hreturns, -, -, rfl⟩ := assignRegisters_cases a.regular h
  obtain ⟨plan, hplan, hfst, hcode, -⟩ := bindReturns_plan hreturns
  intro i hi
  replace hi : i ∈ g'.instructions := hi
  rw [hcode, Plan.code, List.mem_flatMap] at hi
  obtain ⟨⟨j, home⟩, hj, hi⟩ := hi
  refine ready_moveReturn (hf j (hfst ▸ List.mem_map_of_mem hj)) (fun root hroot => ?_) i hi
  cases hroot
  obtain ⟨id, ty, hreturned, hresult, -⟩ := hplan.moved_elsewhere hj
  obtain ⟨first, hfirst, rfl⟩ := Option.map_eq_some_iff.mp hresult
  exact ⟨root_mem_homes (Lowering.mem_passing_resultsOf _ (List.mem_of_mem_head? hfirst)), id, ty,
    hreturned⟩

theorem keeps_placeOperand {name : String} {o o' : Operand}
    (hassigned : ∀ id root, assigned.lookup id = some root → root ∈ t.homes)
    (h : placeOperand t name assigned o = .ok o') : o.Keeps t o' := by
  rw [placeOperand] at h
  split at h
  · next id hkind =>
    obtain ⟨root, hroot, h⟩ := bind_eq_ok.mp h
    cases h
    refine keeps_physical (hassigned id root (orFail_eq_ok.mp hroot)) ?_ rfl rfl
    simp [Operand.isVirtual, hkind]
  · next id hkind =>
    obtain ⟨root, hroot, h⟩ := bind_eq_ok.mp h
    cases h
    refine keeps_physical (hassigned id root (orFail_eq_ok.mp hroot)) ?_ rfl rfl
    simp [Operand.isParameter, hkind]
  · cases h
    exact .refl o

/-- A place that starts an object of a small frame is close to the stack pointer. -/
theorem le_of_resolvedOffset? {frame : Frame} {o : Operand} {n : Int}
    (hframe : ∀ slot position, frame.position? slot = .ok (some position) → position ≤ maxFrameSize)
    (hstart : ∀ n, o.offset? = some n → n = 0) (h : o.resolvedOffset? frame = some n) :
    0 ≤ n ∧ n ≤ maxFrameSize := by
  obtain ⟨kind, ty, regClass⟩ := o
  cases kind with
  | memory base m =>
    cases h
    rw [hstart n rfl]
    exact ⟨Int.le_refl 0, by decide⟩
  | stack slot m =>
    rw [Operand.resolvedOffset?] at h
    cases hposition : frame.position? slot with
    | error e => simp [hposition, Except.toOption] at h
    | ok position? =>
      cases position? with
      | none => simp [hposition, Except.toOption] at h
      | some position =>
        have hsum : (position : Int) + m = n := by simpa [hposition, Except.toOption] using h
        have hle := hframe slot position hposition
        have hm := hstart m rfl
        omega
  | _ => cases h

theorem ready_stackAddress {o : Operand} {base : RegId} {n : Int} {ty ty' : LowType}
    (hop : j.generic? = some .stackAddress)
    (hoperands : j.operands = [o, .physicalReg base ty, .immediate n ty'])
    (hn : 0 ≤ n ∧ n ≤ maxFrameSize) : j.Ready a := by
  refine ⟨Instruction.unselected_of_generic hop, fun op hop' k o' ho' => ?_, fun op hop' m hm => ?_⟩
  · cases hop.symm.trans hop'
    rw [Instruction.operand?, hoperands] at ho'
    refine ⟨fun _ hdest => (by cases hdest), ?_⟩
    rcases k with _ | _ | k
    · trivial
    · cases ho'
      rintro m ⟨⟩
    · trivial
  · cases hop.symm.trans hop'
    rw [Instruction.secondImmediate?, Instruction.operand?, hoperands] at hm
    cases hm
    cases a <;> exact hn

theorem ready_of_unlimited {op : GenericOp} (hop : j.generic? = some op)
    (hspecial : Lowering.isSpecial op = false) (hdest : op.hasDest = false)
    (htakes : ∀ bits n, a.Takes bits n op) : j.Ready a := by
  refine ⟨Instruction.unselected_of_generic hop,
    Instruction.sized_of_not_isSpecial op hop hspecial ?_, fun op' hop' n hn => ?_⟩
  · rw [hdest]
    rintro ⟨⟩
  · cases hop.symm.trans hop'
    exact htakes _ _

theorem ready_placeInstruction
    (hassigned : ∀ id root, assigned.lookup id = some root → root ∈ a.target.homes)
    (hframe : ∀ slot position, f.frame.position? slot = .ok (some position) →
      position ≤ maxFrameSize)
    (hshaped : i.Shaped a.target slots) (hi : i.Ready a)
    (h : placeInstruction a.target f assigned i = .ok j) : j.Ready a := by
  have hopcode := opcode_placeInstruction h
  by_cases hplace : true ∈ i.layout
  · cases hcode : i.opcode with
    | native n =>
      have hform := hshaped.form
      rw [hcode] at hform
      exact absurd hplace hform.2
    | generic op =>
      have hop : i.generic? = some op := congrArg Opcode.generic? hcode
      have hgeneric : j.generic? = some op := congrArg Opcode.generic? (hopcode.trans hcode)
      have hlayout := hshaped.layout_mem hcode
      cases op with
      | stackAddress =>
        simp only [GenericOp.layouts, List.mem_singleton] at hlayout
        obtain ⟨o₁, o₂, hops, hp₁, hp₂⟩ := Instruction.operands_of_layout₂ hlayout
        obtain ⟨-, others, base, offset, hoperands, hcount, hoffset⟩ :=
          exists_of_placeInstruction hplace h
        obtain ⟨o, rfl⟩ := List.length_eq_one_iff.mp (show others.length = 1 by simp_all)
        refine ready_stackAddress hgeneric hoperands (le_of_resolvedOffset? hframe (o := o₂) ?_ ?_)
        · exact (hi.sized _ hop 1 o₂ (by rw [Instruction.operand?, hops]; rfl)).allowed
        · simpa [hops, hp₁, hp₂] using hoffset
      | load | store | zextLoad | branch | ret =>
        exact ready_of_unlimited hgeneric rfl rfl fun _ _ => by cases a <;> trivial
      | _ => simp_all [GenericOp.layouts]
  · exact hi.keeps hopcode ((operands_placeInstruction hplace h).imp
      fun o o' => keeps_placeOperand hassigned)

/-- **Allocation keeps code ready** in a frame within the limit. -/
theorem ready_allocateRegisters (hf : f.All (·.Ready a))
    (hshaped : f.All (·.Shaped a.target f.slots))
    (hframe : ∀ slot position, f.frame.position? slot = .ok (some position) →
      position ≤ maxFrameSize)
    (h : f.allocateRegisters a.target = .ok g) : g.All (·.Ready a) := by
  obtain ⟨alloc, f', blocks, hassign, rfl, hblocks⟩ := exists_placed_of_allocateRegisters h
  have hready := ready_assignRegisters hf hassign
  have hshaped' := shaped_assignRegisters a.regular hshaped hassign
  intro j hj
  obtain ⟨i, hi, hplace⟩ := exists_mem_of_forall₂ (forall₂_instructions hblocks).flip hj
  refine ready_placeInstruction (fun id root => mem_homes_of_lookup hassign)
    (fun slot position hp => ?_) (hshaped' i hi) (hready i hi) hplace
  exact hframe slot position (frame_assignRegisters hassign ▸ hp)

end

/-! ## Frames -/

theorem foldr_size_add (objects : List FrameObject) (n : Nat) :
    objects.foldr (fun o total => o.size + total) n =
      objects.foldr (fun o total => o.size + total) 0 + n := by
  induction objects with
  | nil => exact (Nat.zero_add n).symm
  | cons o objects ih => rw [List.foldr_cons, List.foldr_cons, ih, Nat.add_assoc]

theorem le_foldr_insert (saves : List (Saved × Nat)) (frame : Frame) :
    frame.objects.foldr (fun o total => o.size + total) 0 ≤
      (saves.foldl (fun frame s => frame.insert s.1.slot s.2) frame).objects.foldr
        (fun o total => o.size + total) 0 := by
  induction saves generalizing frame with
  | nil => exact Nat.le_refl _
  | cons s saves ih =>
    refine Nat.le_trans ?_ (ih _)
    have hinsert : (frame.insert s.1.slot s.2).objects =
        frame.objects ++ [⟨s.1.slot, max s.2 Frame.minObjectSize⟩] := rfl
    rw [hinsert, List.foldr_append, foldr_size_add _ (List.foldr _ 0 [_])]
    exact Nat.le_add_right _ _

/-- **The objects of a frame that code is inserted for are within the limit** together. -/
theorem foldr_size_le_of_insertFrameCode (h : f.insertFrameCode t = .ok g) :
    f.frame.objects.foldr (fun o total => o.size + total) 0 ≤ maxFrameSize := by
  rcases insertFrameCode_eq_ok h with ⟨-, hnone, -⟩ |
    ⟨bytes, size, stores, loads, f₂, -, hbytes, hsize, hsmall, -⟩
  · rw [hnone]
    exact Nat.zero_le _
  · rw [Frame.size, Word.fit] at hbytes
    split at hbytes
    · cases hbytes
      exact Nat.le_trans (le_foldr_insert _ f.frame) (Nat.le_trans (le_of_alignTo hsize) hsmall)
    · cases hbytes

theorem le_of_insertFrameCode (h : f.insertFrameCode t = .ok g) {slot : Slot} {position : Nat}
    (hposition : f.frame.position? slot = .ok (some position)) : position ≤ maxFrameSize := by
  have hle := le_of_positionFrom hposition
  rw [Nat.zero_add] at hle
  exact Nat.le_trans hle (foldr_size_le_of_insertFrameCode h)

end Function

end Machine

end Retarget
