import Retarget.Proofs.Banks.Kinds
import Retarget.Proofs.Execution.Redundancy
import Retarget.Proofs.Legality.Expansion
import Retarget.Proofs.Lowering.Produced

/-!
# Kinds through the passes

Simplification reads a value from another register only where both are known to hold the same value
of the same type, so it renames an id to one of its kind (`Renames.Kinded`).  Legalization takes new
registers for values that have a type already (`Rewrite.kinded`).  So legal code of a function that
keeps values of two kinds apart has ids of one kind each (`kinded_of_producesFrom`).
-/

namespace Retarget

namespace Machine

variable {kinds : List Bool} {rs : Renames} {k : Known} {defs : List RegId} {i : Instruction}
  {o : Operand}

/-! ## Simplification -/

/-- Every id is renamed to one of its kind. -/
def Renames.Kinded (kinds : List Bool) (rs : Renames) : Prop :=
  ∀ e ∈ rs.entries, kinds[e.2.id]? = kinds[e.1]?

/-- Known values are where their types say. -/
structure Known.Kinded (kinds : List Bool) (k : Known) : Prop where
  slots : ∀ e ∈ k.slots, e.2.Kinded kinds
  expressions : ∀ e ∈ k.expressions, kinds[e.2.id]? = some e.1.ty.isFloat

theorem Source.value?_of_of? {source : Source} (h : Source.of? o = some source) :
    o.value? = some source.id := by
  obtain ⟨kind, ty, regClass⟩ := o
  cases kind <;> cases h <;> rfl

namespace Renames

theorem Kinded.follow (h : rs.Kinded kinds) (steps : Nat) (source : Source) :
    kinds[(rs.follow steps source).id]? = kinds[source.id]? := by
  induction steps generalizing source with
  | zero => rw [Renames.follow_zero]
  | succ steps ih =>
    cases source with
    | parameter id => rfl
    | virtualReg id =>
      rw [Renames.follow]
      split
      · next source' hlookup =>
        exact (ih source').trans (h (id, source') (mem_of_lookup_eq_some hlookup))
      · rfl

theorem Kinded.applyOperand (h : rs.Kinded kinds) (ho : o.Kinded kinds) :
    (rs.applyOperand o).Kinded kinds := by
  rw [Renames.applyOperand]
  split
  · next reg hkind =>
    refine ⟨fun id hid => ?_, ho.unclassed⟩
    have hreg : kinds[reg]? = some o.ty.isFloat := ho.value reg (by rw [Operand.value?, hkind])
    have hsource : (rs.resolve (.virtualReg reg)).id = id := by
      revert hid
      cases rs.resolve (.virtualReg reg) <;> exact Option.some.inj
    exact hsource ▸ (h.follow _ _).trans hreg
  · next base offset hkind =>
    rw [Operand.setReg, hkind]
    exact Operand.kinded_of_value? rfl ho.unclassed
  · exact ho

theorem Kinded.apply (h : rs.Kinded kinds) (hi : i.Kinded kinds) : (rs.apply i).Kinded kinds := by
  refine ⟨fun o ho => ?_, hi.unloaded⟩
  obtain ⟨o', ho', rfl⟩ := List.mem_map.mp ho
  exact h.applyOperand (hi.operands o' ho')

end Renames

theorem Instruction.Kinded.virtualDef? (hi : i.Kinded kinds) {r : RegId} {d : Operand}
    (hr : i.virtualDef? = some r) (hd : i.def? = some d) : kinds[r]? = some d.ty.isFloat := by
  obtain ⟨d', hd', hkind⟩ := virtualDef?_eq_some.mp hr
  cases hd.symm.trans hd'
  exact (hi.operands d (by simp [operands_of_def? hd])).value r (by rw [Operand.value?, hkind])

namespace Known.Kinded

theorem redundant? (hk : k.Kinded kinds) (hi : i.Kinded kinds) {dest : RegId} {source : Source}
    (h : k.redundant? defs i = some (dest, source)) : kinds[source.id]? = kinds[dest]? := by
  obtain ⟨hdest, ⟨-, place, value, -, hvalue, hty, hsource⟩ | ⟨op, d, -, -, hd, hmem⟩⟩ :=
    redundant?_cases h
  · obtain ⟨d, hd, -⟩ := Instruction.virtualDef?_eq_some.mp hdest
    have hsame : d.ty = value.ty := by
      rw [Instruction.operand?, Instruction.operands_of_def? hd] at hty
      exact Option.some.inj hty
    rw [hi.virtualDef? hdest hd, hsame]
    exact (hk.slots _ hvalue).value _ (Source.value?_of_of? hsource)
  · rw [hi.virtualDef? hdest hd]
    exact hk.expressions _ hmem

theorem after (hk : k.Kinded kinds) (hi : i.Kinded kinds) : (k.after defs i).Kinded kinds := by
  refine ⟨fun e he => ?_, fun e he => ?_⟩
  · obtain ⟨-, ⟨hold, -⟩ | ⟨-, -, hnew, -⟩⟩ := mem_slots_after he
    · exact hk.slots e hold
    · exact hi.operands e.2 (List.mem_of_getElem? hnew)
  · rcases mem_expressions_after he with hold | ⟨dest, hexpression, hdest⟩
    · exact hk.expressions e hold
    · obtain ⟨hdef, op, d, -, -, hd, -, heq⟩ := expression?_eq_some hexpression
      rw [hdest, heq]
      exact hi.virtualDef? hdef hd

end Known.Kinded

theorem kinded_simplifier (kinds : List Bool) (defs : List RegId) :
    SimplifierKeeps defs (Renames.Kinded kinds) (Known.Kinded kinds) (·.Kinded kinds) where
  start := by simp [Renames.Kinded]
  unknown := ⟨by simp, by simp⟩
  apply hrs hi := hrs.apply hi
  insert hrs hk hi hredundant := List.forall_mem_cons.mpr ⟨hk.redundant? hi hredundant, hrs⟩
  after hk hi := hk.after hi

theorem Function.Kinded.optimize {f : Function} (h : f.Kinded kinds) : f.optimize.Kinded kinds := by
  have hcode : f.optimize.All (·.Kinded kinds) :=
    ((kinded_simplifier kinds f.definitions).simplify h.code).dropDead
  have hsame := f.optimize_eq
  refine ⟨?_, hcode, ?_⟩
  · rw [hsame]
    exact h.length
  · rw [hsame]
    exact h.incoming

/-! ## Legalization -/

theorem Instruction.Kinded.replaceOperand {new : Operand} {n : Nat} (hi : i.Kinded kinds)
    (hnew : new.Kinded kinds) : (i.replaceOperand n new).Kinded kinds :=
  ⟨forall_mem_set hi.operands n hnew, hi.unloaded⟩

theorem Instruction.kinded_generic {op : GenericOp} {operands : List Operand}
    (h : ∀ o ∈ operands, o.Kinded kinds) : (generic op operands).markExpanded.Kinded kinds :=
  ⟨h, fun hstore => by cases hstore; rfl⟩

theorem Operand.value?_of_isImmediate (h : o.isImmediate) : o.value? = none := by
  obtain ⟨kind, ty, regClass⟩ := o
  cases kind <;> first | rfl | cases h

end Machine

open Machine

namespace Target

variable {next used : Nat} {i : Instruction} {new : List Instruction} {kinds : List Bool}

/-- **New registers of an expansion have kinds.** -/
theorem Rewrite.kinded (h : Rewrite .aarch64 next i used new) (hi : i.Kinded kinds)
    (hnext : kinds.length = next) :
    ∃ fresh : List Bool, fresh.length = used ∧ ∀ j ∈ new, j.Kinded (kinds ++ fresh) := by
  subst hnext
  have hi (fresh : List Bool) : i.Kinded (kinds ++ fresh) := hi.mono (List.prefix_append _ _)
  cases h with
  | @materialize op k imm hop huse hk himm =>
    have hload : imm.Kinded (kinds ++ [imm.ty.isFloat]) :=
      Operand.kinded_of_value? (Operand.value?_of_isImmediate himm)
        ((hi []).operands imm (List.mem_of_getElem? hk)).unclassed
    have hfresh : (Operand.virtualReg kinds.length imm.ty).Kinded (kinds ++ [imm.ty.isFloat]) :=
      Operand.kinded_virtualReg List.getElem?_concat_length
    refine ⟨[imm.ty.isFloat], rfl, List.forall_mem_cons.mpr ⟨?_, List.forall_mem_singleton.mpr ?_⟩⟩
    · exact Instruction.kinded_generic (by simpa using ⟨hfresh, hload⟩)
    · exact (hi _).replaceOperand hfresh
  | @convert op dest source value folded hop hconversion hoperands hvalue hfolded =>
    have hdest : dest.Kinded (kinds ++ []) := (hi []).operands dest (by simp [hoperands])
    refine ⟨[], rfl, List.forall_mem_singleton.mpr ?_⟩
    exact Instruction.kinded_generic
      (List.forall_mem_cons.mpr ⟨hdest, by simpa using Operand.kinded_of_value? rfl rfl⟩)
  | @remainder op division dest lhs rhs ha hop hdivision hoperands hlhs =>
    have hoperands (fresh : List Bool) : ∀ o ∈ [dest, lhs, rhs], o.Kinded (kinds ++ fresh) :=
      hoperands ▸ (hi fresh).operands
    have hq : (Operand.virtualReg kinds.length dest.ty).Kinded
        (kinds ++ [dest.ty.isFloat, dest.ty.isFloat]) := Operand.kinded_virtualReg (by simp)
    have hp : (Operand.virtualReg (kinds.length + 1) dest.ty).Kinded
        (kinds ++ [dest.ty.isFloat, dest.ty.isFloat]) := Operand.kinded_virtualReg (by simp)
    have hold := hoperands [dest.ty.isFloat, dest.ty.isFloat]
    simp only [List.forall_mem_cons, List.not_mem_nil, false_implies, implies_true, and_true]
      at hold
    refine ⟨[dest.ty.isFloat, dest.ty.isFloat], rfl, ?_⟩
    simp only [List.forall_mem_cons, List.not_mem_nil, false_implies, implies_true, and_true]
    exact ⟨Instruction.kinded_generic (by simpa using ⟨hq, hold.2⟩),
      Instruction.kinded_generic (by simpa using ⟨hp, hq, hold.2.2⟩),
      Instruction.kinded_generic (by simpa using ⟨hold.1, hold.2.1, hp⟩)⟩
  | @flip op flipped imm value negated ha hop hflipped hfirst hk hvalue hnegated hfits =>
    have hnew : (imm.setImmediate negated).Kinded (kinds ++ []) :=
      Operand.kinded_of_value? rfl ((hi []).operands imm (List.mem_of_getElem? hk)).unclassed
    refine ⟨[], rfl, List.forall_mem_singleton.mpr
      ⟨((hi []).replaceOperand hnew).operands, fun hstore => ?_⟩⟩
    cases hstore
    rcases hflipped with ⟨-, h⟩ | ⟨-, h⟩ <;> cases h
  | @address dest source rest symbol ha hop hoperands hsymbol =>
    have hdest : dest.Kinded (kinds ++ []) := (hi []).operands dest (by simp [hoperands])
    refine ⟨[], rfl, List.forall_mem_cons.mpr ⟨⟨?_, nofun⟩,
      List.forall_mem_singleton.mpr ?_⟩⟩
    · exact List.forall_mem_cons.mpr ⟨hdest, by simpa using Operand.kinded_of_value? rfl rfl⟩
    · exact Instruction.kinded_generic (List.forall_mem_cons.mpr ⟨hdest,
        List.forall_mem_cons.mpr ⟨hdest, by simpa using Operand.kinded_of_value? rfl rfl⟩⟩)
  | swap ha | notLess ha | equal ha | different ha => cases ha

theorem Folds.kinded {f g : Function} {b k : Nat} {load zext : Instruction}
    {dest source loaded : Operand} {extra rest : List Operand} {r : RegId}
    (h : Folds f b k g load zext dest source loaded extra rest r) (hload : load.Kinded kinds)
    (hzext : zext.Kinded kinds) : (extendingLoad load dest loaded rest).Kinded kinds :=
  ⟨h.operands (Q := (·.Kinded kinds)) hload.operands hzext.operands
    fun _ _ => Operand.kinded_of_value? rfl rfl, nofun⟩

/-! ### Parameters -/

section Params

variable {f g : Function} {b k : Nat}

theorem params_fresh {r : RegId × Function} (h : f.fresh = .ok r) : r.2.params = f.params := by
  cases Function.fresh_eq_ok h
  rfl

theorem params_materialize {n : Nat} (h : materialize f b k n = .ok g) : g.params = f.params := by
  obtain ⟨instr, -, h⟩ := bind_eq_ok.mp h
  obtain ⟨imm, -, h⟩ := bind_eq_ok.mp h
  obtain ⟨r, hr, h⟩ := bind_eq_ok.mp h
  cases h
  exact params_fresh hr

theorem params_expandRemainder (h : expandRemainder f b k = .ok g) : g.params = f.params := by
  obtain ⟨instr, -, h⟩ := bind_eq_ok.mp h
  split at h
  · split at h
    all_goals
      obtain ⟨division, -, h⟩ := bind_eq_ok.mp h
      obtain ⟨q, hq, h⟩ := bind_eq_ok.mp h
      obtain ⟨p, hp, h⟩ := bind_eq_ok.mp h
      cases h
      exact (params_fresh hp).trans (params_fresh hq)
  · split at h
    all_goals
      obtain ⟨division, -, h⟩ := bind_eq_ok.mp h
      cases h

theorem params_expandConstantConversion (h : expandConstantConversion f b k = .ok g) :
    g.params = f.params := by
  obtain ⟨instr, -, h⟩ := bind_eq_ok.mp h
  split at h
  · obtain ⟨value, -, h⟩ := bind_eq_ok.mp h
    obtain ⟨folded, -, h⟩ := bind_eq_ok.mp h
    cases h
    rfl
  · cases h

theorem AArch64.params_expandAddSub (flipped : GenericOp)
    (h : AArch64.expandAddSub f b k i flipped = .ok g) : g.params = f.params := by
  rw [AArch64.expandAddSub] at h
  split at h
  · cases h
    rfl
  · exact params_materialize h

theorem AArch64.params_expand (h : AArch64.expand f b k = .ok g) : g.params = f.params := by
  obtain ⟨instr, -, h⟩ := bind_eq_ok.mp h
  split at h
  · exact params_materialize h
  · split at h
    · exact params_expandConstantConversion h
    · split at h
      · cases h
      · exact params_expandRemainder h
      · exact params_expandRemainder h
      · obtain ⟨instr, -, h⟩ := bind_eq_ok.mp h
        obtain ⟨n, -, h⟩ := bind_eq_ok.mp h
        exact params_materialize h
      · rw [AArch64.expandGlobalAddress] at h
        split at h
        · split at h <;> cases h
          rfl
        · cases h
      · rw [AArch64.foldZextIntoLoad] at h
        split at h
        · cases h
        · split at h
          · cases h
          · dsimp only at h
            split at h <;> cases h
            rfl
      · exact AArch64.params_expandAddSub _ h
      · exact AArch64.params_expandAddSub _ h
      · exact params_materialize h

theorem Riscv.params_expand (h : Riscv.expand f b k = .ok g) : g.params = f.params := by
  obtain ⟨instr, -, h⟩ := bind_eq_ok.mp h
  split at h
  · exact params_materialize h
  · split at h
    · exact params_expandConstantConversion h
    · split at h
      · obtain ⟨instr, -, h⟩ := bind_eq_ok.mp h
        obtain ⟨n, -, h⟩ := bind_eq_ok.mp h
        exact params_materialize h
      · rw [Riscv.expandCompare] at h
        split at h
        · split at h
          · cases h
            rfl
          · cases h
            rfl
          · obtain ⟨r, hr, h⟩ := bind_eq_ok.mp h
            cases h
            exact params_fresh hr
          · obtain ⟨r, hr, h⟩ := bind_eq_ok.mp h
            cases h
            exact params_fresh hr
          · obtain ⟨r, hr, h⟩ := bind_eq_ok.mp h
            cases h
            exact params_fresh hr
          · exact params_materialize h
          · exact params_materialize h
        · cases h
      · exact params_materialize h
      · cases h

end Params

end Target

theorem Arch.params_expand (a : Arch) {f g : Function} {b k : Nat}
    (h : a.target.expand f b k = .ok g) : g.params = f.params := by
  cases a with
  | aarch64 => exact Target.AArch64.params_expand h
  | riscv32 => exact Target.Riscv.params_expand h

namespace Machine.Function

variable {f g : Function}

theorem params_legalize {a : Arch} (h : f.legalize a.target = .ok g) : g.params = f.params :=
  KeptBy.legalize (R := fun _ _ g => g.params = f.params)
    ⟨fun hf _ _ _ hexpand => (a.params_expand hexpand).trans hf, fun hf _ => hf, fun hf _ => hf⟩ rfl h

/-- **Legal code has kinds where the code before has.** -/
theorem kinded_legalize (hf : ∃ kinds, f.Kinded kinds) (h : f.legalize .aarch64 = .ok g) :
    ∃ kinds, g.Kinded kinds := by
  refine KeptBy.legalize (R := fun _ _ f => ∃ kinds, f.Kinded kinds) ⟨?_, fun hf _ => hf,
    fun hf _ => hf⟩ hf h
  rintro f g b k i ⟨kinds, hf⟩ hi hlegal hexpandable hexpand
  have hparams : g.params = f.params := Target.AArch64.params_expand hexpand
  have hikinded := hf.code i (mem_of_instruction? hi)
  rcases Arch.expand_cases (a := .aarch64) hi hlegal hexpandable hexpand with
    ⟨used, new, hrewrite, hreplaces, hnext⟩ |
      ⟨-, load, dest, source, loaded, extra, rest, r, hfolds⟩
  · obtain ⟨fresh, hfresh, hnew⟩ := hrewrite.kinded hikinded hf.length
    have hle : kinds <+: kinds ++ fresh := List.prefix_append _ _
    refine ⟨kinds ++ fresh, ?_, hreplaces.all (fun j hj => (hf.code j hj).mono hle) hnew, ?_⟩
    · rw [List.length_append, hf.length, hfresh, hnext]
    · rw [hparams]
      exact fun p hp => (hf.incoming p hp).imp_left (getElem?_mono hle)
  · have hload := hf.code load hfolds.mem_instructions.1
    refine ⟨kinds, hf.length.trans hfolds.nextId_eq.symm, hfolds.replaces.2.all hf.code ?_, ?_⟩
    · exact List.forall_mem_singleton.mpr (hfolds.kinded hload hikinded)
    · rw [hparams]
      exact hf.incoming

/-- **Every id of a legal function is of one kind**, if the module keeps values of the two kinds
apart. -/
theorem kinded_of_producesFrom {m : Ir.Module} (h : Target.aarch64.ProducesFrom m f)
    (hm : ∀ source ∈ m.functions, ∃ floats, source.KeepsKinds floats)
    (hg : f.legalize .aarch64 = .ok g) : ∃ kinds, g.Kinded kinds := by
  obtain ⟨source, hsource, lowered, hlower, hf⟩ := h.exists_lowerFunction
  obtain ⟨floats, hfloats⟩ := hm source hsource
  obtain ⟨kinds, hkinds⟩ := Lowering.kinded_lowerFunction hfloats hlower
  refine kinded_legalize ⟨kinds, ?_⟩ hg
  rcases hf with rfl | rfl
  · exact hkinds
  · exact hkinds.optimize

end Machine.Function

end Retarget
