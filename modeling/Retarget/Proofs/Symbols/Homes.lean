import Retarget.Proofs.Symbols.Selected

/-!
# Registers of fetched addresses

An id that nothing mentions before its address is fetched has the class of its first mention
throughout the function (`Classes.inClass_of_first`), and the calling convention does not bind it if
a call is between its fetch and every return (`Function.not_isBound_of_call`).  So it gets a register
that holds addresses (`Function.holdsAddress_of_first`).
-/

namespace Retarget.Machine

open Target

/-! ## Classes of new ids -/

namespace Classes

variable {t : Target} {cs : Classes} {id : RegId} {c : RegClass} {i : Instruction}

theorem mapAccum_append {σ α β : Type} (step : σ → α → σ × β) (s : σ) (as bs : List α) :
    mapAccum step s (as ++ bs) = ((mapAccum step (mapAccum step s as).1 bs).1,
      (mapAccum step s as).2 ++ (mapAccum step (mapAccum step s as).1 bs).2) := by
  induction as generalizing s with
  | nil => rfl
  | cons a as ih =>
    rw [List.cons_append, mapAccum_cons, ih, mapAccum_cons]
    rfl

/-- What a step keeps, all steps keep, and what holds of each answer holds of all. -/
theorem forall_mapAccum {σ α β : Type} (step : σ → α → σ × β) (I : σ → Prop) (Q : β → Prop)
    (as : List α) (hstep : ∀ a ∈ as, ∀ s, I s → I (step s a).1 ∧ Q (step s a).2) {s : σ} (hs : I s) :
    I (mapAccum step s as).1 ∧ ∀ b ∈ (mapAccum step s as).2, Q b := by
  induction as generalizing s with
  | nil => exact ⟨hs, nofun⟩
  | cons a as ih =>
    obtain ⟨ha, has⟩ := List.forall_mem_cons.mp hstep
    obtain ⟨hfirst, hanswer⟩ := ha s hs
    obtain ⟨hrest, hanswers⟩ := ih has hfirst
    rw [mapAccum_cons]
    exact ⟨hrest, List.forall_mem_cons.mpr ⟨hanswer, hanswers⟩⟩

theorem instructions_selectClasses (t : Target) (f : Function) :
    (f.selectClasses t).instructions = (mapAccum (visitInstruction t) {
      ofReg := f.params.reverse.map fun p => (p.id, t.registers.classFor p.ty.bits p.isFloat) }
      f.instructions).2 := by
  have hblocks : ∀ (cs : Classes) (blocks : List Block),
      (mapAccum (visitBlock t) cs blocks).2.flatMap (·.instructions) =
        (mapAccum (visitInstruction t) cs (blocks.flatMap (·.instructions))).2 := by
    intro cs blocks
    induction blocks generalizing cs with
    | nil => rfl
    | cons b blocks ih =>
      rw [List.flatMap_cons, mapAccum_append, mapAccum_cons, List.flatMap_cons, ih]
      rfl
  exact hblocks _ _

/-- A register has a class, and if it is the id, this one. -/
def ClassedAs (id : RegId) (c : RegClass) (o : Operand) : Prop :=
  ∀ id', o.value? = some id' → ∃ c', o.regClass = some c' ∧ (id' = id → c' = c)

theorem lookup_choose (h : cs.ofReg.lookup id = some c) (other : RegId) (proposal : RegClass) :
    (cs.choose other proposal).1.ofReg.lookup id = some c ∧
      (other = id → (cs.choose other proposal).2 = c) := by
  rw [choose]
  split
  · next c' hlookup =>
    refine ⟨h, ?_⟩
    rintro rfl
    exact Option.some.inj (hlookup.symm.trans h)
  · next hlookup =>
    have hne : other ≠ id := by
      rintro rfl
      cases hlookup.symm.trans h
    refine ⟨?_, fun heq => absurd heq hne⟩
    rw [List.lookup_cons, beq_false_of_ne hne.symm]
    exact h

theorem lookup_choose_of_ne (h : cs.ofReg.lookup id = none) {other : RegId} (hne : other ≠ id)
    (proposal : RegClass) : (cs.choose other proposal).1.ofReg.lookup id = none := by
  rw [choose]
  split
  · exact h
  · rw [List.lookup_cons, beq_false_of_ne hne.symm]
    exact h

theorem classedAs_of_value?_eq_none {o : Operand} (hid : o.value? = none) (k : Nat) :
    ClassedAs id c (visitOperand t i cs (o, k)).2 := by
  intro id' hid'
  rw [Operand.value?, kind_visitOperand] at hid'
  cases hid.symm.trans hid'

theorem visitOperand_of_lookup (h : cs.ofReg.lookup id = some c) (e : Operand × Nat) :
    (visitOperand t i cs e).1.ofReg.lookup id = some c ∧
      ClassedAs id c (visitOperand t i cs e).2 := by
  obtain ⟨o, k⟩ := e
  cases hid : o.value? with
  | none =>
    rw [(visitOperand_of_value?_eq_none t i cs k hid).1]
    exact ⟨h, classedAs_of_value?_eq_none hid k⟩
  | some other =>
    rw [visitOperand_of_value? hid]
    obtain ⟨hlookup, hclass⟩ := lookup_choose h other
      (t.registers.classFor o.size (i.isFloatPosition k o))
    refine ⟨hlookup, fun id' hid' => ⟨_, rfl, fun heq => hclass ?_⟩⟩
    cases hid.symm.trans hid'
    exact heq

theorem visitOperand_of_ne (h : cs.ofReg.lookup id = none) {e : Operand × Nat}
    (hne : e.1.value? ≠ some id) : (visitOperand t i cs e).1.ofReg.lookup id = none ∧
      ClassedAs id c (visitOperand t i cs e).2 := by
  obtain ⟨o, k⟩ := e
  cases hid : o.value? with
  | none =>
    rw [(visitOperand_of_value?_eq_none t i cs k hid).1]
    exact ⟨h, classedAs_of_value?_eq_none hid k⟩
  | some other =>
    have hother : other ≠ id := fun heq => hne (heq ▸ hid)
    rw [visitOperand_of_value? hid]
    refine ⟨lookup_choose_of_ne h hother _, fun id' hid' => ⟨_, rfl, fun heq => ?_⟩⟩
    cases hid.symm.trans hid'
    exact absurd heq hother

theorem lookup_inherit (h : cs.ofReg.lookup id = some c) (i : Instruction) :
    (cs.inherit i).ofReg.lookup id = some c := by
  rw [inherit]
  split
  · split
    · exact (lookup_choose h _ _).1
    · exact h
  · exact h

theorem lookup_inherit_of_not_mem (h : cs.ofReg.lookup id = none) (hid : id ∉ i.ids) :
    (cs.inherit i).ofReg.lookup id = none := by
  rw [inherit]
  split
  · split
    · next other _ hother =>
      refine lookup_choose_of_ne h ?_ _
      rintro rfl
      obtain ⟨d, hd, hid'⟩ := Option.bind_eq_some_iff.mp hother
      exact hid (List.mem_filterMap.mpr ⟨d, Lowering.mem_operands_of_def? hd, hid'⟩)
    · exact h
  · exact h

theorem visitInstruction_of_lookup (h : cs.ofReg.lookup id = some c) (i : Instruction) :
    (visitInstruction t cs i).1.ofReg.lookup id = some c ∧
      ∀ o ∈ (visitInstruction t cs i).2.operands, ClassedAs id c o := by
  obtain ⟨hlookup, hclasses⟩ := forall_mapAccum (visitOperand t i)
    (fun cs => cs.ofReg.lookup id = some c) (ClassedAs id c) i.operands.zipIdx
    (fun e _ cs h => visitOperand_of_lookup h e) (lookup_inherit h i)
  exact ⟨(congrArg (List.lookup id) (ofReg_record _ _)).trans hlookup, hclasses⟩

theorem visitInstruction_of_not_mem (h : cs.ofReg.lookup id = none) (hid : id ∉ i.ids) :
    (visitInstruction t cs i).1.ofReg.lookup id = none ∧
      ∀ o ∈ (visitInstruction t cs i).2.operands, ClassedAs id c o := by
  have hne : ∀ e ∈ i.operands.zipIdx, e.1.value? ≠ some id := by
    intro e he hvalue
    refine hid (List.mem_filterMap.mpr ⟨e.1, List.fst_mem_of_mem_zipIdx he, ?_⟩)
    rw [Operand.unallocated?_eq_value? (Operand.isMemory_of_value? hvalue), hvalue]
  obtain ⟨hlookup, hclasses⟩ := forall_mapAccum (visitOperand t i)
    (fun cs => cs.ofReg.lookup id = none) (ClassedAs id c) i.operands.zipIdx
    (fun e he cs h => visitOperand_of_ne h (hne e he)) (lookup_inherit_of_not_mem h hid)
  exact ⟨(congrArg (List.lookup id) (ofReg_record _ _)).trans hlookup, hclasses⟩

/-- The first operand to mention an id gives it a class, unless the instruction loads it. -/
theorem visitInstruction_of_first {o : Operand} {rest : List Operand}
    (h : cs.ofReg.lookup id = none) (hload : i.isLoad = false) (hoperands : i.operands = o :: rest)
    (ho : o.value? = some id) :
    (visitInstruction t cs i).1.ofReg.lookup id =
        some (t.registers.classFor o.size (i.isFloatPosition 0 o)) ∧
      ∀ o' ∈ (visitInstruction t cs i).2.operands,
        ClassedAs id (t.registers.classFor o.size (i.isFloatPosition 0 o)) o' := by
  have hinherit : cs.inherit i = cs := by simp [inherit, hload]
  have hfirst : (visitOperand t i cs (o, 0)).1.ofReg.lookup id =
        some (t.registers.classFor o.size (i.isFloatPosition 0 o)) ∧
      ClassedAs id (t.registers.classFor o.size (i.isFloatPosition 0 o))
        (visitOperand t i cs (o, 0)).2 := by
    rw [visitOperand_of_value? ho, choose, h]
    refine ⟨List.lookup_cons_self .., fun id' _ => ⟨_, rfl, fun _ => rfl⟩⟩
  obtain ⟨hlookup, hclasses⟩ := forall_mapAccum (visitOperand t i)
    (fun cs => cs.ofReg.lookup id = some (t.registers.classFor o.size (i.isFloatPosition 0 o)))
    (ClassedAs id (t.registers.classFor o.size (i.isFloatPosition 0 o))) (rest.zipIdx 1)
    (fun e _ cs h => visitOperand_of_lookup h e) hfirst.1
  rw [visitInstruction, hinherit, hoperands, List.zipIdx_cons, mapAccum_cons]
  exact ⟨(congrArg (List.lookup id) (ofReg_record _ _)).trans hlookup,
    List.forall_mem_cons.mpr ⟨hfirst.2, hclasses⟩⟩

variable {f : Function} {before after : List Instruction} {o : Operand} {rest : List Operand}

/-- **An id has the class of its first mention all over the function**, if that is the first operand
of an instruction that does not load it. -/
theorem inClass_of_first (hsplit : f.instructions = before ++ i :: after) (hparam : id ∉ f.paramIds)
    (hnew : ¬Occurs before id) (hload : i.isLoad = false) (hoperands : i.operands = o :: rest)
    (ho : o.value? = some id) : (f.selectClasses t).All fun j => ∀ o' ∈ j.operands,
      ClassedAs id (t.registers.classFor o.size (i.isFloatPosition 0 o)) o' := by
  have hstart : (({ ofReg := f.params.reverse.map fun p =>
      (p.id, t.registers.classFor p.ty.bits p.isFloat) } : Classes)).ofReg.lookup id = none := by
    rw [List.lookup_eq_none_iff]
    intro e he
    obtain ⟨p, hp, rfl⟩ := List.mem_map.mp he
    simp only [bne_iff_ne, ne_eq]
    rintro rfl
    exact hparam (List.mem_map_of_mem (List.mem_reverse.mp hp))
  obtain ⟨hbefore, hclasses⟩ := forall_mapAccum (visitInstruction t)
    (fun cs => cs.ofReg.lookup id = none)
    (fun j => ∀ o' ∈ j.operands,
      ClassedAs id (t.registers.classFor o.size (i.isFloatPosition 0 o)) o') before
    (fun j hj cs h => visitInstruction_of_not_mem h fun hid => hnew ⟨j, hj, hid⟩) hstart
  obtain ⟨hfirst, hclass⟩ := visitInstruction_of_first (t := t) hbefore hload hoperands ho
  obtain ⟨-, hclasses'⟩ := forall_mapAccum (visitInstruction t)
    (fun cs => cs.ofReg.lookup id = some (t.registers.classFor o.size (i.isFloatPosition 0 o)))
    (fun j => ∀ o' ∈ j.operands,
      ClassedAs id (t.registers.classFor o.size (i.isFloatPosition 0 o)) o') after
    (fun j _ cs h => visitInstruction_of_lookup h j) hfirst
  intro j hj
  rw [instructions_selectClasses, hsplit, mapAccum_append, mapAccum_cons] at hj
  rcases List.mem_append.mp hj with hj | hj
  · exact hclasses j hj
  · rcases List.mem_cons.mp hj with rfl | hj
    · exact hclass
    · exact hclasses' j hj

end Classes

namespace Function

/-! ## Registers of new ids -/

variable {a : Arch} {f g : Function} {alloc : Allocation} {id home : RegId} {i call : Instruction}
  {xs ys zs before after : List Instruction} {o : Operand} {rest : List Operand}

/-- **An id is not bound if a call is between it and every return** that could hand it back. -/
theorem not_isBound_of_call (hparam : id ∉ f.paramIds)
    (hsplit : f.instructions = xs ++ (ys ++ call :: zs)) (hxs : ¬Occurs xs id) (hys : Occurs ys id)
    (hquiet : ∀ i ∈ ys, i.isReturn = false) (hcall : call.isCall) (hgoes : call.isReturn = false) :
    ¬f.IsBound a.target id := by
  rintro ⟨bound, hbindings, hbound⟩
  obtain ⟨reg, hbound⟩ := Option.isSome_iff_exists.mp hbound
  obtain ⟨params, hparams, h⟩ := bind_eq_ok.mp hbindings
  obtain ⟨⟨bound', g'⟩, hreturns, h⟩ := bind_eq_ok.mp h
  cases h
  obtain ⟨plan, hplan, hfst, -⟩ := bindReturns_plan hreturns
  rcases hplan.lookup_new hbound with hold | ⟨j, ty, hmem, hret, -⟩
  · exact hparam (mem_paramIds_of_lookup hparams hold)
  have hj : j ∈ xs ++ (ys ++ call :: zs) := by
    rw [← hsplit, ← hfst]
    exact List.mem_map_of_mem (f := Prod.fst) hmem
  have hid : id ∈ j.ids := by
    rw [ids_of_returned? hret]
    exact List.mem_cons_self
  have hreturn := (returned?_eq_some hret).1
  rw [List.mem_append, List.mem_append, List.mem_cons] at hj
  rcases hj with hj | hj | rfl | hj
  · exact hxs ⟨j, hj, hid⟩
  · cases hreturn.symm.trans (hquiet j hj)
  · cases hreturn.symm.trans hgoes
  · -- the call would overwrite the result register on the way
    rw [← List.append_assoc] at hsplit
    have hquiet := quiet_of_between hparams hplan hparam hbound hsplit (occurs_append.mpr (.inr hys))
      ⟨j, hj, hid⟩
    cases hcall.symm.trans hquiet.1

theorem holdsAddress_of_inClass? (hfree : home ∈ a.target.allocatable)
    (hclass : (a.target.registers.inClass? home
      (a.target.registers.classFor a.target.pointerBits false)).isSome) :
    a.HoldsAddress (a.target.registers.withWidth home a.target.pointerBits) := by
  cases a with
  | aarch64 =>
    have hgeneral : ∀ reg ∈ Arch.aarch64.target.allocatable, AArch64.registers.isFloat reg = false →
        AArch64.IsGeneralPurpose (AArch64.registers.withWidth reg 64) ∧
          AArch64.widthOf (AArch64.registers.withWidth reg 64) = 64 := by
      decide +kernel
    exact hgeneral home hfree (@AArch64.isFloat_of_inClass? home 64 false hclass)
  | riscv32 =>
    have hne : ∀ reg ∈ Arch.riscv32.target.allocatable, reg ≠ Riscv.zero := by decide +kernel
    have hself : Arch.riscv32.target.registers.withWidth home 32 = home := Riscv.withWidth_eq home 32
    exact hself.symm ▸ hne home hfree

/-- **An id that is no more than an address holds addresses**: nothing mentions it before it is
defined as a pointer, and it is not bound. -/
theorem holdsAddress_of_first
    (hassign : (f.selectClasses a.target).assignRegisters a.target = .ok (alloc, g))
    (hsplit : f.instructions = before ++ i :: after) (hparam : id ∉ f.paramIds)
    (hnew : ¬Occurs before id) (hload : i.isLoad = false) (hoperands : i.operands = o :: rest)
    (ho : o.value? = some id) (hsize : o.size = a.target.pointerBits)
    (hfloat : i.isFloatPosition 0 o = false)
    (hunbound : ¬(f.selectClasses a.target).IsBound a.target id)
    (hhome : alloc.assigned.lookup id = some home) :
    a.HoldsAddress (a.target.registers.withWidth home a.target.pointerBits) := by
  have hclasses := Classes.inClass_of_first (t := a.target) hsplit hparam hnew hload hoperands ho
  rw [hsize, hfloat] at hclasses
  obtain ⟨params, bound, g', hparams, hreturns, hcode, horigin⟩ := assignRegisters_follows hassign
  obtain ⟨params', bound', g'', s, hparams', hreturns', hsound, rfl, rfl⟩ :=
    assignRegisters_cases a.regular hassign
  cases hparams.symm.trans hparams'
  cases hreturns.symm.trans hreturns'
  have hnone : bound.lookup id = none := by
    by_contra hbound
    refine hunbound ⟨bound, ?_, Option.isSome_iff_ne_none.mpr hbound⟩
    rw [bindings, hparams, ok_bind, hreturns]
    rfl
  have hfree : home ∈ a.target.allocatable := by
    rcases hsound.origin id home hhome with hbound | ⟨hfree, -⟩
    · cases hnone.symm.trans hbound
    · exact (mem_free hfree).1
  rcases horigin id home hhome with hbound | ⟨-, range, hrange, rfl, hclass⟩
  · cases hnone.symm.trans hbound
  -- all operands that name the id have the class of pointers
  obtain ⟨plan, hplan, hfst, hplanned, -⟩ := bindReturns_plan hreturns
  have hall : g'.All fun i => ∀ o ∈ i.operands, ∀ id', o.value? = some id' → ∃ c,
      o.regClass = some c ∧ (id' = range.reg →
        c = a.target.registers.classFor a.target.pointerBits false) := by
    intro i hi o ho id' hid'
    rw [hplanned] at hi
    obtain ⟨i₀, hi₀, ho₀⟩ := Plan.mem_operands_code hi ho hid'
    rw [hfst] at hi₀
    exact hclasses i₀ hi₀ o ho₀ id' hid'
  refine holdsAddress_of_inClass? hfree ?_
  cases hregClass : range.regClass with
  | none => rwa [hregClass] at hclass
  | some c =>
    have hknown := (g'.classed_liveRanges.known range hrange).symm.trans hregClass
    obtain ⟨o', ho', hclassOf⟩ := List.exists_of_findSome?_eq_some hknown
    obtain ⟨j, hj, ho'⟩ := List.mem_flatMap.mp ho'
    obtain ⟨hid, hclassOf⟩ := Operand.classOf?_eq_some_iff.mp hclassOf
    obtain ⟨c', hc', hsame⟩ := hall j hj o' ho' range.reg hid
    cases hclassOf.symm.trans hc'
    rw [hregClass, hsame rfl] at hclass
    exact hclass

end Function

end Retarget.Machine
