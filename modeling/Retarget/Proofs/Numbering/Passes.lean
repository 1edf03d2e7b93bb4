import Retarget.Proofs.Banks.Passes
import Retarget.Proofs.Execution.Thinning
import Retarget.Proofs.Legality.Expansion

/-!
# Ids after the passes

Simplification draws no ids.  It turns registers into others that the function mentions, parameters
included, and a place stays addressed by a register or a parameter (`Function.Numbered.optimized`).
Legalization draws ids for registers only, each at the place where it is first named
(`Function.Numbered.legalize`).  So in lowered code the ids of parameters, frame objects and virtual
registers are apart, and they stay so through both passes (`Function.idsApart_passes`).
-/

namespace Retarget

open Machine

namespace Machine

variable {f g : Function}

/-! ## Simplification -/

theorem Operand.kind_of_source {o : Operand} {source : Source} (h : Source.of? o = some source) :
    o.kind = source.kind := by
  obtain ⟨kind, ty, regClass⟩ := o
  cases kind with
  | virtualReg id | parameter id =>
    cases h
    rfl
  | _ => cases h

theorem Function.Mentions.numbered {source : Source} (h : f.Mentions source) (hf : f.Numbered) :
    source.kind.Numbered f := by
  obtain ⟨i, hi, o, ho, hsource⟩ := h
  exact Operand.kind_of_source hsource ▸ hf.code i hi o ho

theorem Source.mayAddress {source : Source} (h : source.kind.Numbered f) :
    f.HasRegister source.id ∨ source.id ∈ f.paramIds := by
  cases source with
  | virtualReg id => exact .inl h
  | parameter id => exact .inr h

/-- Operands stay numbered where registers are renamed to ones that are mentioned. -/
theorem Renames.numbered_applyOperand {rs : Renames} (hf : f.Numbered)
    (hrs : ∀ entry ∈ rs.entries, f.Mentions entry.2) {o : Operand} (ho : o.Numbered f) :
    (rs.applyOperand o).Numbered f := by
  obtain ⟨kind, ty, regClass⟩ := o
  cases kind with
  | virtualReg r =>
    show (rs.resolve (.virtualReg r)).kind.Numbered f
    rcases rs.resolve_cases (.virtualReg r) with heq | ⟨entry, hentry, heq⟩
    · rw [heq]
      exact ho
    · exact heq ▸ (hrs entry hentry).numbered hf
  | memory base offset =>
    -- the base may be a parameter, which is not renamed
    show f.HasRegister (rs.resolve (.virtualReg base)).id ∨
      (rs.resolve (.virtualReg base)).id ∈ f.paramIds
    rcases rs.resolve_cases (.virtualReg base) with heq | ⟨entry, hentry, heq⟩
    · rw [heq]
      exact ho
    · exact heq ▸ Source.mayAddress ((hrs entry hentry).numbered hf)
  | _ => exact ho

namespace Function

theorem widens_optimize (f : Function) : f.Widens f.optimize := by
  rw [optimize_eq]
  exact ⟨Nat.le_refl _, rfl, rfl⟩

theorem Numbered.optimized (hf : f.Numbered) (h : f.optimized = .ok g) : g.Numbered := by
  have hwidens : f.Widens g := (optimized_eq_ok.mp h).2 ▸ f.widens_optimize
  refine ⟨hwidens.drawn hf.drawn, fun i' hi' o' ho' => ?_⟩
  obtain ⟨i, hi, rfl⟩ := exists_of_mem_optimized hf.proper h hi'
  obtain ⟨o, ho, rfl⟩ := List.mem_map.mp ho'
  refine Operand.Numbered.mono ?_ hwidens.toExtends
  rw [renames_eq]
  exact Renames.numbered_applyOperand hf
    (f.sourcesMentioned (f.blocks.length, 0)).renames (hf.code i hi o ho)

end Function

end Machine

/-! ## Legalization -/

namespace Target

variable {a : Arch} {f : Function} {next used : Nat} {i : Instruction} {new : List Instruction}

/-- The code of an expansion names what the instruction names, and its new registers. -/
theorem Rewrite.numbered (h : Rewrite a next i used new) (hi : i.Numbered f)
    (hnew : ∀ n < used, f.HasRegister (next + n)) : ∀ j ∈ new, j.Numbered f :=
  h.operands (Q := (·.Numbered f)) hi (fun n hn _ => hnew n hn) Operand.numbered_of_isImmediate
    Operand.numbered_global fun _ => Operand.numbered_physicalReg _

end Target

namespace Machine.Function

variable {a : Arch} {f g : Function}

theorem Numbered.legalize (hf : f.Numbered) (h : f.legalize a.target = .ok g) : g.Numbered := by
  refine KeptBy.legalize (R := fun _ _ f => f.Numbered) ⟨?_, fun hf _ => hf, fun hf _ => hf⟩ hf h
  intro f g b k i hf hi hlegal hexpandable hexpand
  have hparams : g.params = f.params := a.params_expand hexpand
  have hicode := hf.code i (mem_of_instruction? hi)
  rcases Arch.expand_cases hi hlegal hexpandable hexpand with
    ⟨used, new, hrewrite, hreplaces, hnext⟩ |
      ⟨-, load, dest, source, loaded, extra, rest, r, hfolds⟩
  · have hwidens : f.Widens g := ⟨hnext ▸ Nat.le_add_right _ _, hparams, hreplaces.frame⟩
    have hle := hwidens.toExtends
    have hnew : ∀ n < used, g.HasRegister (f.nextId + n) := fun n hn =>
      hwidens.hasRegister hf.drawn (Nat.le_add_right _ _) (hnext ▸ Nat.add_lt_add_left hn _)
    exact ⟨hwidens.drawn hf.drawn, hreplaces.all (fun j hj => (hf.code j hj).mono hle)
      (hrewrite.numbered (hicode.mono hle) hnew)⟩
  · have hreplaces := hfolds.replaces.2
    have hload := hf.code load hfolds.mem_instructions.1
    have hwidens : f.Widens g := ⟨hfolds.nextId_eq.ge, hparams, hreplaces.frame⟩
    have hle := hwidens.toExtends
    refine ⟨hwidens.drawn hf.drawn, hreplaces.all (fun j hj => (hf.code j hj).mono hle) ?_⟩
    exact List.forall_mem_singleton.mpr (hfolds.operands (Q := (·.Numbered g)) (hload.mono hle)
      (hicode.mono hle) Operand.numbered_immediate)

/-- **The ids of parameters, frame objects and virtual registers are apart** in lowered code, and in
what the passes make of it. -/
theorem idsApart_passes {m : Ir.Module} {code : Machine.Module}
    (hcode : Lowering.lowerModule a.target m = .ok code) (hf : f ∈ code.functions) :
    f.IdsApart ∧ (∀ g, f.optimized = .ok g → g.IdsApart) ∧
      ∀ g, (g = f ∨ f.optimized = .ok g) →
        ∀ legal, g.legalize a.target = .ok legal → legal.IdsApart := by
  obtain ⟨source, -, hlower⟩ := Lowering.exists_lowerFunction_of_mem hcode hf
  have hnumbered := Lowering.numbered_lowerFunction hlower
  refine ⟨hnumbered.idsApart, fun g hg => (hnumbered.optimized hg).idsApart, ?_⟩
  rintro g (rfl | hg) legal hlegal
  · exact (hnumbered.legalize hlegal).idsApart
  · exact ((hnumbered.optimized hg).legalize hlegal).idsApart

/-- `rest(p, n) = n % *p`, where `n` is stored to the frame and loaded from there first. -/
def restOfPointee : Ir.Module where
  name := "m"
  functions := [{
    name := "rest"
    returnType := .i32
    parameters := [⟨"p", .ptr .i32, false⟩, ⟨"n", .i32, false⟩]
    blocks := [{
      name := "entry"
      instructions :=
        [.stackAlloc 0 "x" .i32, .store (.param "n" .i32) (.temp 0 (.ptr .i32)),
          .load 1 (.temp 0 (.ptr .i32)) .i32, .load 2 (.param "p" (.ptr .i32)) .i32,
          .binary 3 .mod (.temp 1 .i32) (.temp 2 .i32) .i32, .ret (some (.temp 3 .i32))] }] }]

/-- The load from the frame is dropped, and the remainder takes two registers more. -/
theorem restOfPointee_idsApart : ∃ code f g legal,
    Lowering.lowerModule Arch.aarch64.target restOfPointee = .ok code ∧ f ∈ code.functions ∧
      f.optimized = .ok g ∧ g.legalize .aarch64 = .ok legal ∧
      legal.paramIds = [0, 1] ∧ legal.slotIds = [2] ∧
      legal.operands.filterMap (·.virtualReg?) = [4, 6, 4, 7, 6, 4, 5, 7, 5] ∧
      legal.operands.filterMap (·.base?) = [0] ∧ legal.nextId = 8 ∧
      f.IdsApart ∧ g.IdsApart ∧ legal.IdsApart := by
  have hrun : ((Lowering.lowerModule Arch.aarch64.target restOfPointee).bind fun code =>
      code.functions.mapM fun f => f.optimized.bind fun g =>
        (g.legalize Arch.aarch64.target).map fun legal =>
          ([legal.paramIds, legal.slotIds, legal.operands.filterMap (·.virtualReg?),
            legal.operands.filterMap (·.base?)], legal.nextId)) =
      .ok [([[0, 1], [2], [4, 6, 4, 7, 6, 4, 5, 7, 5], [0]], 8)] := by
    decide +kernel
  obtain ⟨code, hcode, hrun⟩ := bind_eq_ok.mp hrun
  obtain ⟨f, hf, hrun⟩ := exists_of_mem_mapM_eq_ok hrun List.mem_cons_self
  obtain ⟨g, hg, hrun⟩ := bind_eq_ok.mp hrun
  obtain ⟨legal, hlegal, hids⟩ := map_eq_ok.mp hrun
  simp only [Prod.mk.injEq, List.cons.injEq, and_true] at hids
  obtain ⟨⟨hparams, hslots, hregisters, hbases⟩, hnext⟩ := hids
  obtain ⟨hlowered, hoptimized, hlegalized⟩ := idsApart_passes hcode hf
  exact ⟨code, f, g, legal, hcode, hf, hg, hlegal, hparams, hslots, hregisters, hbases, hnext,
    hlowered, hoptimized g hg, hlegalized g (.inr hg) legal hlegal⟩

end Machine.Function

end Retarget
