import Retarget.Proofs.Legality.Expansion
import Retarget.Proofs.Lowering.Produced
import Retarget.Proofs.Shape.Allocation
import Retarget.Proofs.Shape.Legalization
import Retarget.Proofs.Stack.Paths

/-!
# The stack pointer up to allocation

The stack pointer is apart from all registers that values are put in (`Target.Reserved`).  So up to
allocation no instruction names it (`Instruction.Undisturbed`), and after allocation it occurs only
as the base of a place in the frame, never as the first operand (`Instruction.Steady`).
-/

namespace Retarget

open Machine Target

/-! ## Registers -/

namespace Target

/-- The registers that values are put in, and the link register. -/
def homes (t : Target) : List RegId :=
  t.allocatable ++ t.passing ++ t.passing.map t.registers.root ++ [t.registers.link]

/-- The stack pointer has a number of its own, no views, is no view, and holds no values. -/
structure Reserved (t : Target) : Prop where
  numbered : ∀ r ∈ t.registers.file.zipIdx, r.1.id = r.2
  alone : ∀ r ∈ t.registers.file,
    t.registers.stack ∉ r.views ∧ (r.id = t.registers.stack → r.views = [])
  apart : t.registers.stack ∉ t.homes

end Target

theorem Arch.reserved (a : Arch) : a.target.Reserved := by
  cases a with
  | aarch64 => exact ⟨by decide +kernel, by decide +kernel, by decide +kernel⟩
  | riscv32 => exact ⟨by decide +kernel, by decide +kernel, by decide +kernel⟩

namespace Target.Reserved

variable {t : Target}

theorem id_eq (ht : t.Reserved) {n : RegId} {r : Register} (h : t.registers.get? n = some r) :
    r.id = n :=
  ht.numbered (r, n) (List.mem_zipIdx_iff_getElem?.mpr h)

theorem root_ne (ht : t.Reserved) {reg : RegId} (h : reg ≠ t.registers.stack) :
    t.registers.root reg ≠ t.registers.stack := by
  rw [Registers.root, Registers.parent?]
  cases hfind : t.registers.file.find? fun r => r.views.contains reg with
  | none => exact h
  | some r =>
    intro hstack
    have hviews := (ht.alone r (List.mem_of_find?_eq_some hfind)).2 hstack
    have hmem := List.find?_some hfind
    simp [hviews] at hmem

theorem betterFor_eq (bits : Nat) (r s : Register) :
    Registers.betterFor bits r s = r ∨ Registers.betterFor bits r s = s := by
  rw [Registers.betterFor]
  split_ifs <;> simp

theorem foldl_betterFor_mem (bits : Nat) (r : Register) (rs : List Register) :
    rs.foldl (Registers.betterFor bits) r ∈ r :: rs := by
  induction rs generalizing r with
  | nil => simp
  | cons s rs ih =>
    have hmem := ih (Registers.betterFor bits r s)
    rw [List.foldl_cons]
    rcases betterFor_eq bits r s with heq | heq <;> rw [heq] at hmem ⊢ <;> simp at hmem ⊢ <;> tauto

theorem withWidth_ne (ht : t.Reserved) {reg : RegId} (h : reg ≠ t.registers.stack) (bits : Nat) :
    t.registers.withWidth reg bits ≠ t.registers.stack := by
  rw [Registers.withWidth]
  split
  · exact h
  · next top htop =>
    rcases List.mem_cons.mp (foldl_betterFor_mem bits top (top.views.filterMap t.registers.get?))
      with heq | hmem
    · rw [heq, ht.id_eq htop]
      exact ht.root_ne h
    · obtain ⟨view, hview, hget⟩ := List.mem_filterMap.mp hmem
      rw [ht.id_eq hget]
      rintro rfl
      exact (ht.alone top (List.mem_of_getElem? htop)).1 hview

theorem ne_of_mem_homes (ht : t.Reserved) {reg : RegId} (h : reg ∈ t.homes) :
    reg ≠ t.registers.stack := by
  rintro rfl
  exact ht.apart h

end Target.Reserved

/-! ## Before allocation -/

namespace Machine

def Operand.IsStackPointer (t : Target) (o : Operand) : Prop :=
  o.kind = .physicalReg t.registers.stack

/-- The instruction does not name the stack pointer, and is marked as a return if it is one. -/
structure Instruction.Undisturbed (a : Arch) (i : Instruction) : Prop where
  returns : i.isReturn ↔ i.opcode = .generic .ret
  role : a.role i = .plain
  apart : ∀ o ∈ i.operands, ¬o.IsStackPointer a.target

namespace Instruction

variable {a : Arch} {i : Instruction}

theorem returns_generic (op : GenericOp) (os : List Operand) :
    (generic op os).isReturn ↔ (generic op os).opcode = .generic .ret := by
  cases op <;> simp [generic, make, isReturn, Opcode.flags, GenericOp.flags]

theorem undisturbed_generic (op : GenericOp) {os : List Operand}
    (h : ∀ o ∈ os, ¬o.IsStackPointer a.target) : (generic op os).Undisturbed a :=
  ⟨returns_generic op os, rfl, h⟩

theorem Undisturbed.replaceOperand (h : i.Undisturbed a) (k : Nat) {o : Operand}
    (ho : ¬o.IsStackPointer a.target) : (i.replaceOperand k o).Undisturbed a :=
  ⟨h.returns, h.role, forall_mem_set h.apart k ho⟩

end Instruction

end Machine

namespace Target

variable {a : Arch}

theorem not_isStackPointer_of_isImmediate {t : Target} {o : Operand} (h : o.isImmediate) :
    ¬o.IsStackPointer t := by
  intro hkind
  rw [Operand.isImmediate, hkind] at h
  cases h

theorem Rewrite.undisturbed {next used : Nat} {i : Instruction} {new : List Instruction}
    (h : Rewrite a next i used new) (hi : i.Undisturbed a) :
    ∀ j ∈ new, j.Undisturbed a := by
  have hsource : i.isReturn = false := by
    obtain ⟨op, hop, hcases⟩ := h.exists_generic?
    rw [Bool.eq_false_iff, ne_eq, hi.returns, Instruction.generic?_eq_some hop]
    rintro ⟨⟩
    simp [GenericOp.isThreeAddress, GenericOp.isWidthConversion] at hcases
  have hoperands := h.operands (Q := fun o => ¬o.IsStackPointer a.target) hi.apart
    (by rintro _ _ _ ⟨⟩) not_isStackPointer_of_isImmediate (by rintro _ _ ⟨⟩)
    (by rintro rfl ty ⟨⟩)
  intro j hj
  have hunmarked := h.isReturn_eq_false hsource j hj
  cases hop : j.generic? with
  | some op =>
    have hcode := Instruction.generic?_eq_some hop
    refine ⟨iff_of_false (by simp [hunmarked]) fun hret => ?_, by rw [Arch.role, hcode],
      hoperands j hj⟩
    cases hcode.symm.trans hret
    simpa [GenericOp.isThreeAddress] using h.generic?_cases hj hop
  | none =>
    obtain ⟨rfl, hcode⟩ := h.native_cases hj hop
    refine ⟨iff_of_false (by simp [hunmarked]) fun hret => ?_, AArch64.Op.adrp.role_eq hcode,
      hoperands j hj⟩
    cases hcode.symm.trans hret

theorem Folds.undisturbed {f g : Function} {b k : Nat} {load zext : Instruction}
    {dest source loaded : Operand} {extra rest : List Operand} {r : RegId}
    (h : Folds f b k g load zext dest source loaded extra rest r) (hload : load.Undisturbed a)
    (hzext : zext.Undisturbed a) : (extendingLoad load dest loaded rest).Undisturbed a := by
  have hoperands := h.operands (Q := fun o => ¬o.IsStackPointer a.target) hload.apart hzext.apart
    (by rintro _ _ ⟨⟩)
  have hreturn : (extendingLoad load dest loaded rest).isReturn = load.isReturn := by
    simp [extendingLoad, Instruction.markExpanded, Instruction.addFlags, Instruction.isReturn,
      Flags.union, Instruction.setOpcode, Instruction.withOperands]
  refine ⟨iff_of_false (fun hmarked => ?_) (by rintro ⟨⟩), rfl, hoperands⟩
  cases h.isLoad.symm.trans (hload.returns.mp (hreturn ▸ hmarked))

end Target

namespace Machine.Function

variable {a : Arch} {t : Target} {f g : Function}

/-- Nothing in the function disturbs the stack pointer, and no register has to be saved. -/
structure Untouched (a : Arch) (f : Function) : Prop where
  all : f.All (·.Undisturbed a)
  unsaved : f.usedCalleeSaved = []

theorem untouched_of_produces (h : a.target.Produces f) : f.Untouched a := by
  have ht := a.reserved
  refine ⟨fun i hi => ?_, h.usedCalleeSaved_eq⟩
  have hplain := h.plain i hi
  obtain ⟨op, hcode, hflags, -⟩ := hplain.form
  refine ⟨?_, by rw [Arch.role, hcode], fun o ho hkind => ?_⟩
  · rw [Instruction.isReturn, hflags, hcode]
    cases op <;> simp [GenericOp.flags]
  · obtain ⟨root, hroot, hstack⟩ := (hplain.operands o ho).passes _ hkind
    refine ht.withWidth_ne (ht.ne_of_mem_homes ?_) o.size hstack.symm
    simp [homes, hroot]

theorem Untouched.legalize (hf : f.Untouched a) (h : f.legalize a.target = .ok g) :
    g.Untouched a :=
  ⟨.legalize Target.Rewrite.undisturbed Target.Folds.undisturbed hf.all h,
    (notes_legalize h).2.1.trans hf.unsaved⟩

theorem Untouched.selectClasses (hf : f.Untouched a) : (f.selectClasses a.target).Untouched a := by
  refine ⟨fun i hi => ?_, hf.unsaved⟩
  obtain ⟨b, hb, hi⟩ := mem_instructions.mp hi
  obtain ⟨cs, block, hblock, rfl⟩ := mem_mapAccum hb
  obtain ⟨cs', j, hj, rfl⟩ := mem_mapAccum hi
  have hj := hf.all j (mem_instructions.mpr ⟨block, hblock, hj⟩)
  refine ⟨hj.returns, hj.role, fun o ho hkind => ?_⟩
  obtain ⟨cs'', ⟨o', n⟩, ho', rfl⟩ := mem_mapAccum ho
  rw [Operand.IsStackPointer, Classes.kind_visitOperand] at hkind
  exact hj.apart o' (List.fst_mem_of_mem_zipIdx ho') hkind

/-! ## Allocation -/

section

variable {alloc : Allocation}

theorem root_mem_homes {reg : RegId} (h : reg ∈ t.passing) : t.registers.root reg ∈ t.homes := by
  have hroot := List.mem_map_of_mem (f := t.registers.root) h
  simp [homes, hroot]

theorem ne_of_resultRoot? (ht : t.Reserved) {ty : LowType} {reg : RegId}
    (h : resultRoot? t ty = some reg) : reg ≠ t.registers.stack := by
  obtain ⟨first, hfirst, rfl⟩ := Option.map_eq_some_iff.mp h
  refine ht.ne_of_mem_homes (root_mem_homes ?_)
  exact Lowering.mem_passing_resultsOf _ (List.mem_of_mem_head? hfirst)

theorem ne_of_assigned (ha : t.Regular) (ht : t.Reserved)
    (h : f.assignRegisters t = .ok (alloc, g)) {id reg : RegId}
    (hid : alloc.assigned.lookup id = some reg) : reg ≠ t.registers.stack := by
  obtain ⟨params, bound, g', s, hparams, hreturns, hsound, rfl, -⟩ := assignRegisters_cases ha h
  obtain ⟨plan, hplan, -⟩ := bindReturns_plan hreturns
  rcases hsound.origin id reg hid with hbound | ⟨hfree, -⟩
  · rcases hplan.lookup_new hbound with hold | ⟨i, ty, -, -, hreg⟩
    · obtain ⟨p, -, -, ⟨-, rfl⟩ | hmem⟩ := mem_bindParameters hparams (mem_of_lookup_eq_some hold)
      · exact ht.ne_of_mem_homes (root_mem_homes (by simp [Target.passing]))
      · obtain ⟨first, hfirst, rfl⟩ := List.mem_map.mp hmem
        refine ht.ne_of_mem_homes (root_mem_homes ?_)
        simp only [List.drop_zero, List.mem_append] at hfirst
        rcases hfirst with hfirst | hfirst <;> simp [Target.passing, hfirst]
    · exact ne_of_resultRoot? ht hreg
  · refine ht.ne_of_mem_homes ?_
    simp [homes, (mem_free hfree).1]

theorem Scan.place_usedCalleeSaved {name : String} {s s' : Scan} {r : LiveRange}
    (h : place t name s r = .ok s')
    (hs : ∀ reg ∈ s.usedCalleeSaved, ∃ id, s.assigned.lookup id = some reg) :
    ∀ reg ∈ s'.usedCalleeSaved, ∃ id, s'.assigned.lookup id = some reg := by
  rw [Scan.place] at h
  split at h
  · cases h
    exact hs
  · next hnone =>
    obtain ⟨⟨taken, pool⟩, -, h⟩ := bind_eq_ok.mp h
    cases pure_eq_ok.mp h
    have hold : ∀ reg ∈ s.usedCalleeSaved,
        ∃ id, ((r.reg, taken.reg) :: s.assigned).lookup id = some reg := by
      intro reg hreg
      obtain ⟨id, hid⟩ := hs reg hreg
      exact ⟨id, lookup_cons_of_lookup (Option.not_isSome_iff_eq_none.mp hnone) hid⟩
    have hused : ∀ (isNew : Bool) (reg : RegId),
        (reg ∈ if isNew then s.usedCalleeSaved ++ [taken.reg] else s.usedCalleeSaved) →
        reg ∈ s.usedCalleeSaved ∨ reg = taken.reg := by
      intro isNew
      cases isNew <;> simp +contextual
    intro reg hreg
    rcases hused _ reg hreg with hreg | rfl
    · exact hold reg hreg
    · exact ⟨r.reg, List.lookup_cons_self⟩

theorem exists_assigned_of_used (hf : f.usedCalleeSaved = [])
    (h : f.assignRegisters t = .ok (alloc, g)) :
    ∀ reg ∈ g.usedCalleeSaved, ∃ id, alloc.assigned.lookup id = some reg := by
  obtain ⟨params, bound, g', s, -, hreturns, hscan, rfl, rfl⟩ := exists_scan_of_assignRegisters h
  have hused : g'.usedCalleeSaved = [] := by
    obtain ⟨_, -, -, -, hg'⟩ := bindReturns_plan hreturns
    rw [hg']
    exact hf
  exact foldlM_eq_ok (P := fun s : Scan => ∀ reg ∈ s.usedCalleeSaved,
    ∃ id, s.assigned.lookup id = some reg) (by simp [hused])
    (fun _ _ _ _ hs hplace => Scan.place_usedCalleeSaved hplace hs) hscan

theorem undisturbed_moveReturn {i : Instruction} {home : Option RegId} (hi : i.Undisturbed a)
    (hhome : ∀ reg, home = some reg → reg ≠ a.target.registers.stack) :
    ∀ j ∈ moveReturn a.target i home, j.Undisturbed a := by
  unfold moveReturn
  split
  · next reg value hvalue =>
    have hdest : ¬(Operand.physicalReg (a.target.registers.withWidth reg value.size) value.ty
        ).IsStackPointer a.target := by
      intro hkind
      exact a.reserved.withWidth_ne (hhome reg rfl) value.size (Operand.Kind.physicalReg.inj hkind)
    have hsource := hi.apart value (List.mem_of_getElem? hvalue)
    simp only [List.forall_mem_cons, List.not_mem_nil, false_implies, implies_true, and_true]
    exact ⟨Instruction.undisturbed_generic _ (by simp [hdest, hsource]),
      hi.replaceOperand 0 hdest⟩
  · simpa using hi

theorem Untouched.assignRegisters (hf : f.Untouched a)
    (h : f.assignRegisters a.target = .ok (alloc, g)) : g.All (·.Undisturbed a) := by
  obtain ⟨params, bound, g', s, -, hreturns, -, -, rfl⟩ := assignRegisters_cases a.regular h
  obtain ⟨plan, hplan, hfst, hcode, -⟩ := bindReturns_plan hreturns
  intro i hi
  replace hi : i ∈ g'.instructions := hi
  rw [hcode, Plan.code, List.mem_flatMap] at hi
  obtain ⟨⟨j, home⟩, hj, hi⟩ := hi
  refine undisturbed_moveReturn (hf.all j ?_) (fun reg hreg => ?_) i hi
  · rw [← hfst]
    exact List.mem_map_of_mem hj
  · cases hreg
    obtain ⟨_, _, -, hroot, -⟩ := hplan.moved_elsewhere hj
    exact ne_of_resultRoot? a.reserved hroot

end

end Machine.Function

/-! ## After allocation -/

namespace Machine

def GenericOp.hasPlace (op : GenericOp) : Bool := op.layouts.any (·.contains true)

/-- The instruction is marked as a return if it is one, does not start with the stack pointer, and
names it only as the base of a place. -/
structure Instruction.Steady (a : Arch) (i : Instruction) : Prop where
  returns : i.isReturn ↔ i.opcode = .generic .ret ∨ a.role i = .ret
  head : ∀ o ∈ i.operands.head?, ¬o.IsStackPointer a.target
  apart : ∀ op, i.opcode = .generic op → op.hasPlace = false →
    ∀ o ∈ i.operands, ¬o.IsStackPointer a.target

namespace Function

variable {a : Arch} {t : Target} {f g : Function} {assigned : List (RegId × RegId)}

theorem not_isStackPointer_placeOperand (ht : t.Reserved) {name : String} {o o' : Operand}
    (hassigned : ∀ id reg, assigned.lookup id = some reg → reg ≠ t.registers.stack)
    (ho : ¬o.IsStackPointer t) (h : placeOperand t name assigned o = .ok o') :
    ¬o'.IsStackPointer t := by
  obtain ⟨kind, ty, regClass⟩ := o
  cases kind with
  | virtualReg id | parameter id =>
    obtain ⟨reg, hreg, h⟩ := bind_eq_ok.mp h
    cases h
    intro hkind
    exact ht.withWidth_ne (hassigned id reg (orFail_eq_ok.mp hreg)) _
      (Operand.Kind.physicalReg.inj hkind)
  | _ =>
    cases h
    exact ho

/-- Only certain operations have places, and always another operand in front of one or behind
it. -/
theorem hasPlace_of_layout {i : Instruction} {slots : List Slot} (h : i.Shaped t slots)
    (hplace : true ∈ i.layout) :
    (∀ op, i.opcode = .generic op → op.hasPlace) ∧ 2 ≤ i.operands.length := by
  have hform := h.form
  cases hcode : i.opcode with
  | native n =>
    rw [hcode] at hform
    exact absurd hplace hform.2
  | generic op =>
    have hmem := h.layout_mem hcode
    have hlayouts : ∀ layout ∈ op.layouts, true ∈ layout → 2 ≤ layout.length := by
      cases op <;> decide
    refine ⟨fun op' hop' => ?_, ?_⟩
    · cases hop'
      exact List.any_eq_true.mpr ⟨_, hmem, List.contains_iff_mem.mpr hplace⟩
    · simpa [Instruction.layout] using hlayouts _ hmem hplace

theorem steady_placeInstruction {i j : Instruction} {slots : List Slot} (hi : i.Undisturbed a)
    (hshaped : i.Shaped a.target slots)
    (hassigned : ∀ id reg, assigned.lookup id = some reg → reg ≠ a.target.registers.stack)
    (h : placeInstruction a.target f assigned i = .ok j) : j.Steady a := by
  obtain ⟨operands, hoperands, hcases⟩ := placeInstruction_cases h
  have hlayout : operands.map (·.isPlace) = i.layout := by
    have hsame : List.Forall₂ Eq (operands.map (·.isPlace)) (i.operands.map (·.isPlace)) := by
      rw [List.forall₂_map_left_iff, List.forall₂_map_right_iff]
      exact ((forall₂_of_mapM_eq_ok hoperands).imp fun o o' => isPlace_placeOperand).flip
    rwa [List.forall₂_eq_eq_eq] at hsame
  have hapart : ∀ o ∈ operands, ¬o.IsStackPointer a.target := by
    intro o ho
    obtain ⟨o', ho', hplaced⟩ := exists_of_mem_mapM_eq_ok hoperands ho
    exact not_isStackPointer_placeOperand a.reserved hassigned (hi.apart o' ho') hplaced
  have hreturns : i.isReturn ↔ i.opcode = .generic .ret ∨ a.role i = .ret := by
    rw [hi.returns, hi.role]
    simp
  obtain ⟨-, rfl⟩ | ⟨before, place, after, base, offset, rfl, -, hplace, -, rfl⟩ := hcases
  · exact ⟨hreturns, fun o ho => hapart o (List.mem_of_mem_head? ho), fun _ _ _ => hapart⟩
  · have hmem : true ∈ i.layout := by
      rw [← hlayout, ← hplace]
      exact List.mem_map_of_mem (List.mem_append_right _ List.mem_cons_self)
    obtain ⟨hop, hlength⟩ := hasPlace_of_layout hshaped hmem
    refine ⟨hreturns, fun o ho => ?_, fun op hcode hnone => ?_⟩
    · replace ho : o ∈ (before ++ after ++ _).head? := ho
      have hcount : before.length + (after.length + 1) = i.operands.length := by
        simpa [Instruction.layout] using congrArg List.length hlayout
      rw [List.head?_append_of_ne_nil] at ho
      · refine hapart o ?_
        have hothers := List.mem_of_mem_head? ho
        simp only [List.mem_append, List.mem_cons] at hothers ⊢
        exact hothers.imp_right .inr
      · rw [← List.length_pos_iff, List.length_append]
        omega
    · rw [hop op hcode] at hnone
      cases hnone

/-- **Allocation keeps the stack pointer to the bases of places**, and what has to be saved is
another register. -/
theorem Untouched.allocateRegisters (hf : f.Untouched a)
    (hshaped : f.All (·.Shaped a.target f.slots)) (h : f.allocateRegisters a.target = .ok g) :
    g.All (·.Steady a) ∧ ∀ reg ∈ g.registersToSave a.target, reg ≠ a.target.registers.stack := by
  obtain ⟨alloc, f', blocks, hassign, rfl, hblocks⟩ := exists_placed_of_allocateRegisters h
  have hassigned : ∀ id reg, alloc.assigned.lookup id = some reg →
      reg ≠ a.target.registers.stack :=
    fun id reg => ne_of_assigned a.regular a.reserved hassign
  refine ⟨fun j hj => ?_, fun reg hreg => ?_⟩
  · obtain ⟨i, hi, hplace⟩ := exists_mem_of_forall₂ (forall₂_instructions hblocks).flip hj
    exact steady_placeInstruction (hf.assignRegisters hassign i hi)
      (shaped_assignRegisters a.regular hshaped hassign i hi) hassigned hplace
  · rcases List.mem_append.mp hreg with hreg | hreg
    · refine a.reserved.ne_of_mem_homes ?_
      split at hreg
      · simp [homes, List.mem_singleton.mp hreg]
      · simp at hreg
    · obtain ⟨id, hid⟩ := exists_assigned_of_used hf.unsaved hassign reg hreg
      exact hassigned id reg hid

end Function

end Machine

end Retarget
