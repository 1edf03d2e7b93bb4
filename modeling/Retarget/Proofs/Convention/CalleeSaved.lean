import Retarget.Proofs.Convention.Named
import Retarget.Proofs.Convention.Parameters

/-!
# Callee-saved registers in use

Only allocation gives out callee-saved registers, and it notes each of them when it comes from the
backup pool; later it may come from the primary pool as well (`Scan.Notes`).  So all along the passes
an instruction names a callee-saved register only if the function has it noted, and is a call only in
a function that is marked as a caller (`Function.Covers`).
-/

namespace Retarget

/-! ## Calls in lowered code -/

namespace Lowering

open Machine

variable {c : Scope} {s s' : State} {E : Instruction → Prop} {N : Note → Prop}

/-- A function with a call in it is marked as a caller. -/
def State.Marked (s : State) : Prop :=
  ∀ i, i ∈ s.code.toList ∨ i ∈ s.function.instructions → i.isCall → s.function.isCaller

theorem State.Marked.append (h : s.Marked) {i : Instruction}
    (hi : i.isCall → s.function.isCaller) : (s.append [i]).Marked := by
  intro j hj hcall
  rw [State.code_append, List.mem_append, List.mem_singleton] at hj
  rcases hj with (hj | rfl) | hj
  · exact h j (.inl hj) hcall
  · exact hi hcall
  · exact h j (.inr hj) hcall

theorem State.Marked.evolves (h : s.Marked) (hs : Evolves E N s s') : s'.Marked := by
  induction hs with
  | refl => exact h
  | tail _ hstep ih =>
    cases hstep with
    | emit hi hcall => exact ih.append hcall
    | note hnote =>
      intro i hi
      rw [State.code_note, State.function_note] at hi
      rw [State.function_note]
      exact ih i hi
    | caller => exact fun _ _ _ => rfl
    | _ => exact ih

theorem State.Marked.parameters (h : s.Marked) (hs : Relation.ReflTransGen ParameterStep s s') :
    s'.Marked := by
  induction hs with
  | refl => exact h
  | tail _ hstep ih =>
    cases hstep with
    | store place source => exact ih.append nofun
    | _ => exact ih

theorem lowerBlocks_marked {blocks : List Ir.Block} (hs : s.Marked)
    (h : (c.lowerBlocks blocks).run s = .ok ((), s')) : s'.Marked := by
  refine lowerBlocks_keeps hs (fun _ _ hs hevolves => hs.evolves hevolves) ?_ h
  intro s s' name hmarked hclose
  cases hclose
  intro i hi
  refine hmarked i ?_
  simpa [Function.instructions, or_comm] using hi

/-- **A lowered function with a call in it is a caller.** -/
theorem isCaller_of_lowerFunction {t : Target} {f : Ir.Function} {m : Machine.Function}
    (h : lowerFunction t f = .ok m) {i : Instruction} (hi : i ∈ m.instructions)
    (hcall : i.isCall) : m.isCaller := by
  obtain ⟨⟨_, s⟩, hrun, h⟩ := bind_eq_ok.mp h
  cases h
  obtain ⟨_, s₁, hparams, hblocks⟩ := run_bind_eq_ok.mp hrun
  have hstart : (State.start f).Marked := by
    simp [State.Marked, State.start, Function.instructions]
  have hmarked := hstart.parameters (parameterSteps hparams)
  exact lowerBlocks_marked hmarked hblocks i (.inr hi) hcall

end Lowering

/-! ## Instructions -/

open Machine Target

/-- The full-width register does not have to be saved, or is in `used`. -/
def Arch.Spares (a : Arch) (used : List RegId) (reg : RegId) : Prop :=
  reg ∈ a.target.convention.calleeSaved → reg ∈ used

/-- The convention passes values in registers that need not be saved; neither need the stack pointer
or the zero register. -/
theorem Arch.not_calleeSaved (a : Arch) :
    (∀ reg ∈ a.target.passing, a.target.registers.root reg ∉ a.target.convention.calleeSaved) ∧
      a.target.registers.root a.target.registers.stack ∉ a.target.convention.calleeSaved ∧
      a.target.registers.link ∉ a.target.convention.calleeSaved := by
  cases a <;> decide +kernel

theorem Riscv.zero_not_calleeSaved :
    riscv32.registers.root Riscv.zero ∉ riscv32.convention.calleeSaved := by
  decide +kernel

namespace Machine

variable {a : Arch} {used used' : List RegId} {isCaller : Bool} {i j : Instruction} {o : Operand}

/-- The operand names no register that has to be saved but is not in `used`. -/
def Operand.Spared (a : Arch) (used : List RegId) (o : Operand) : Prop :=
  ∀ reg, o.root? a.target = some reg → a.Spares used reg

/-- The instruction names no callee-saved register but those in `used`, and is a call only in a
caller. -/
structure Instruction.Covered (a : Arch) (used : List RegId) (isCaller : Bool) (i : Instruction) :
    Prop where
  operands : ∀ o ∈ i.operands, o.Spared a used
  caller : a.calls i → isCaller

namespace Instruction

theorem Covered.mono (h : i.Covered a used isCaller) (hsub : used ⊆ used') :
    i.Covered a used' isCaller :=
  ⟨fun o ho reg hreg hsaved => hsub (h.operands o ho reg hreg hsaved), h.caller⟩

theorem Covered.of_from (h : i.Covered a used isCaller) (hj : From a i j) :
    j.Covered a used isCaller := by
  refine ⟨fun o ho reg hreg => ?_, fun hcalls => h.caller (hj.calls hcalls)⟩
  obtain ⟨o', ho', hroot⟩ := Function.mem_physicalRoots.mp (hj.names o ho reg hreg)
  exact h.operands o' ho' reg hroot

theorem covered_generic {op : GenericOp} {os : List Operand} (hop : op.flags.call = false)
    (h : ∀ o ∈ os, o.Spared a used) : (generic op os).Covered a used isCaller := by
  refine ⟨h, fun hcalls => ?_⟩
  have hnot : a.calls (generic op os) = false := hop
  rw [hnot] at hcalls
  cases hcalls

theorem Covered.replaceOperand (h : i.Covered a used isCaller) (k : Nat)
    (ho : o.Spared a used) : (i.replaceOperand k o).Covered a used isCaller :=
  ⟨forall_mem_set h.operands k ho, h.caller⟩

end Instruction

end Machine

namespace Target

variable {a : Arch} {used : List RegId} {isCaller : Bool}

theorem spared_of_isImmediate {o : Operand} (h : o.isImmediate) : o.Spared a used := by
  intro reg hreg
  obtain ⟨kind, ty, regClass⟩ := o
  cases kind with
  | physicalReg r => cases h
  | _ => cases hreg

theorem Rewrite.covered {next count : Nat} {i : Instruction} {new : List Instruction}
    (h : Rewrite a next i count new) (hi : i.Covered a used isCaller) :
    ∀ j ∈ new, j.Covered a used isCaller := by
  have hoperands := h.operands (Q := (·.Spared a used)) hi.operands (fun _ _ _ => nofun)
    spared_of_isImmediate (fun _ _ => nofun) (by
      rintro rfl ty reg ⟨⟩ hsaved
      exact absurd hsaved Riscv.zero_not_calleeSaved)
  intro j hj
  refine ⟨hoperands j hj, fun hcalls => ?_⟩
  cases hop : j.generic? with
  | some op =>
    rw [Instruction.calls_eq hop] at hcalls
    have hcall : op ≠ .call := by
      rintro rfl
      simpa [GenericOp.isThreeAddress] using h.generic?_cases hj hop
    cases op <;> first | exact absurd rfl hcall | cases hcalls
  | none =>
    obtain ⟨rfl, hcode⟩ := h.native_cases hj hop
    rw [Arch.calls_of_nativeFlags? (AArch64.Op.adrp.nativeFlags? hcode)] at hcalls
    cases hcalls

theorem Folds.covered {f g : Function} {b k : Nat} {load zext : Instruction}
    {dest source loaded : Operand} {extra rest : List Operand} {r : RegId}
    (h : Folds f b k g load zext dest source loaded extra rest r)
    (hload : load.Covered a used isCaller) (hzext : zext.Covered a used isCaller) :
    (extendingLoad load dest loaded rest).Covered a used isCaller :=
  ⟨h.operands (Q := (·.Spared a used)) hload.operands hzext.operands fun _ _ => nofun, nofun⟩

end Target

/-! ## Before allocation -/

namespace Machine.Function

variable {a : Arch} {f g : Function} {alloc : Allocation}

/-- The function has noted every callee-saved register that it names, and is marked as a caller if
it calls. -/
def Covers (a : Arch) (f : Function) : Prop :=
  f.All (·.Covered a f.usedCalleeSaved f.isCaller)

theorem isCaller_optimize (f : Function) : f.optimize.isCaller = f.isCaller := by
  rw [optimize_eq]

theorem calls_eq_isCall {t : Target} {next : Nat} {i : Instruction} (hi : i.Plain t next) :
    a.calls i = i.isCall := by
  obtain ⟨op, hcode, hflags, -⟩ := hi.form
  rw [Arch.calls, hcode, Instruction.isCall, hflags]

theorem isCaller_of_produces (h : a.target.Produces f) {i : Instruction}
    (hi : i ∈ f.instructions) (hcalls : a.calls i) : f.isCaller := by
  obtain ⟨source, g, hlower, hf⟩ := h.exists_lowerFunction
  have hplain := Lowering.plain_lowerFunction hlower
  have hg : g.All fun i => a.calls i → g.isCaller := fun i hi hcalls =>
    Lowering.isCaller_of_lowerFunction hlower hi (calls_eq_isCall (hplain i hi) ▸ hcalls)
  rcases hf with rfl | rfl
  · exact hg i hi hcalls
  · rw [isCaller_optimize]
    exact (hg.simplify fun _ _ h => h).dropDead i hi hcalls

theorem covers_of_produces (h : a.target.Produces f) : f.Covers a := by
  refine fun i hi => ⟨fun o ho reg hreg hsaved => ?_, isCaller_of_produces h hi⟩
  have hplain := (h.plain i hi).operands o ho
  obtain ⟨kind, ty, regClass⟩ := o
  cases kind with
  | physicalReg r =>
    cases hreg
    obtain ⟨root, hroot, hr⟩ := hplain.passes r rfl
    rw [hr, a.root_withWidth] at hsaved
    exact absurd hsaved (a.not_calleeSaved.1 root hroot)
  | _ => cases hreg

theorem Covers.legalize (hf : f.Covers a) (h : f.legalize a.target = .ok g) : g.Covers a := by
  obtain ⟨-, hsaved, hcaller⟩ := notes_legalize h
  rw [Covers, hsaved, hcaller]
  exact .legalize Target.Rewrite.covered Target.Folds.covered hf h

theorem Covers.selectClasses (hf : f.Covers a) : (f.selectClasses a.target).Covers a := by
  intro i hi
  obtain ⟨b, hb, hi⟩ := mem_instructions.mp hi
  obtain ⟨cs, block, hblock, rfl⟩ := mem_mapAccum hb
  obtain ⟨cs', j, hj, rfl⟩ := mem_mapAccum hi
  have hj := hf j (mem_instructions.mpr ⟨block, hblock, hj⟩)
  refine ⟨fun o ho reg hreg => ?_, hj.caller⟩
  obtain ⟨cs'', ⟨o', n⟩, ho', rfl⟩ := mem_mapAccum ho
  rw [Operand.root?_congr (Classes.kind_visitOperand j cs'' (o', n))] at hreg
  exact hj.operands o' (List.fst_mem_of_mem_zipIdx ho') reg hreg

/-! ## The pools -/

/-- What holds of a scan: callee-saved registers that are given out, or were, are in use. -/
structure Scan.Notes (a : Arch) (s : Scan) : Prop where
  assigned : ∀ id reg, s.assigned.lookup id = some reg → a.Spares s.usedCalleeSaved reg
  primary : ∀ reg ∈ s.pool.primary, a.Spares s.usedCalleeSaved reg
  backup : s.pool.backup ⊆ a.target.convention.calleeSaved
  used : s.usedCalleeSaved ⊆ a.target.convention.calleeSaved
  nodup : s.usedCalleeSaved.Nodup

theorem Scan.foldl_release (assigned : List (RegId × RegId)) (ended : List LiveRange)
    (p : RegisterPool) :
    let p' := ended.foldl (fun pool r => match assigned.lookup r.reg with
      | some reg => pool.release reg
      | none => pool) p
    p'.backup = p.backup ∧
      ∀ reg ∈ p'.primary, reg ∈ p.primary ∨ ∃ id, assigned.lookup id = some reg := by
  induction ended generalizing p with
  | nil => exact ⟨rfl, fun _ => .inl⟩
  | cons r ended ih =>
    rw [List.foldl_cons]
    cases hr : assigned.lookup r.reg with
    | none => exact ih p
    | some reg =>
      obtain ⟨hbackup, hprimary⟩ := ih (p.release reg)
      have hrelease : (p.release reg).backup = p.backup ∧
          ∀ reg' ∈ (p.release reg).primary, reg' ∈ p.primary ∨ reg' = reg := by
        rw [RegisterPool.release]
        split
        · exact ⟨rfl, fun _ => .inl⟩
        · exact ⟨rfl, by simp⟩
      refine ⟨hbackup.trans hrelease.1, fun reg' hreg' => ?_⟩
      rcases hprimary reg' hreg' with hmem | hassigned
      · rcases hrelease.2 reg' hmem with hmem | rfl
        · exact .inl hmem
        · exact .inr ⟨r.reg, hr⟩
      · exact .inr hassigned

theorem Scan.Notes.expire {s : Scan} (h : s.Notes a) (start : Nat) : (s.expire start).Notes a := by
  obtain ⟨hbackup, hprimary⟩ :=
    Scan.foldl_release s.assigned (s.active.partition fun r => r.stop < start).1 s.pool
  refine ⟨h.assigned, fun reg hreg => ?_, ?_, h.used, h.nodup⟩
  · rcases hprimary reg hreg with hmem | ⟨id, hid⟩
    · exact h.primary reg hmem
    · exact h.assigned id reg hid
  · exact hbackup ▸ h.backup

/-- A register comes from the primary pool, or from the backup pool and is promoted. -/
theorem take_cases {p p' : RegisterPool} {rs : Target.Registers} {c : RegClass}
    {taken : RegisterPool.Taken} (h : p.take rs c = some (taken, p')) :
    p'.primary ⊆ p.primary ∧ p'.backup ⊆ p.backup ∧
      (taken.promoted = false ∧ taken.reg ∈ p.primary ∨
        taken.promoted = true ∧ taken.reg ∈ p.backup) := by
  rw [RegisterPool.take] at h
  split at h
  · next reg hreg =>
    cases h
    exact ⟨List.eraseP_subset, fun _ hr => hr, .inl ⟨rfl, List.mem_of_find?_eq_some hreg⟩⟩
  · split at h
    · next reg hreg =>
      cases h
      exact ⟨fun _ hr => hr, List.eraseP_subset, .inr ⟨rfl, List.mem_of_find?_eq_some hreg⟩⟩
    · cases h

theorem Scan.Notes.place {name : String} {s s' : Scan} {r : LiveRange} (hs : s.Notes a)
    (h : place a.target name s r = .ok s') :
    s'.Notes a ∧ s.usedCalleeSaved ⊆ s'.usedCalleeSaved := by
  rw [Scan.place] at h
  split at h
  · cases h
    exact ⟨hs, fun _ hr => hr⟩
  · obtain ⟨⟨taken, pool⟩, htake, h⟩ := bind_eq_ok.mp h
    cases pure_eq_ok.mp h
    have hexpired := hs.expire r.start
    obtain ⟨hprimary, hbackup, hcases⟩ := take_cases (orFail_eq_ok.mp htake)
    -- The registers in use afterwards, and that the register taken is among them if it is saved.
    have hused : ∀ used', (if taken.promoted && !s.usedCalleeSaved.contains taken.reg
          then s.usedCalleeSaved ++ [taken.reg] else s.usedCalleeSaved) = used' →
        s.usedCalleeSaved ⊆ used' ∧ a.Spares used' taken.reg ∧
          used' ⊆ a.target.convention.calleeSaved ∧ used'.Nodup := by
      rintro used' rfl
      rcases hcases with ⟨hfalse, hmem⟩ | ⟨htrue, hmem⟩
      · rw [hfalse, Bool.false_and, if_neg Bool.false_ne_true]
        exact ⟨fun _ hr => hr, hexpired.primary _ hmem, hs.used, hs.nodup⟩
      · rw [htrue, Bool.true_and]
        by_cases hnew : taken.reg ∈ s.usedCalleeSaved
        · rw [if_neg (by simpa using hnew)]
          exact ⟨fun _ hr => hr, fun _ => hnew, hs.used, hs.nodup⟩
        · rw [if_pos (by simpa using hnew)]
          refine ⟨List.subset_append_left _ _, fun _ => by simp, ?_, ?_⟩
          · exact List.append_subset.mpr ⟨hs.used, by simpa using hexpired.backup hmem⟩
          · rw [List.nodup_append]
            refine ⟨hs.nodup, by simp, fun reg hr other hother => ?_⟩
            rw [List.mem_singleton.mp hother]
            rintro rfl
            exact hnew hr
    obtain ⟨hsub, htaken, hsaved, hnodup⟩ := hused _ rfl
    refine ⟨⟨fun id reg hid => ?_, fun reg hreg => ?_, List.Subset.trans hbackup hexpired.backup,
      hsaved, hnodup⟩, hsub⟩
    · rw [List.lookup_cons] at hid
      split at hid
      · cases hid
        exact htaken
      · exact fun hmem => hsub (hs.assigned id reg hid hmem)
    · exact fun hmem => hsub (hexpired.primary reg (hprimary hreg) hmem)

theorem Scan.Notes.run {name : String} {ranges : List LiveRange} {s s' : Scan} (hs : s.Notes a)
    (h : ranges.foldlM (Scan.place a.target name) s = .ok s') : s'.Notes a :=
  foldlM_eq_ok hs (fun _ _ _ _ hs hplace => (hs.place hplace).1) h

/-! ## Allocation -/

theorem exists_passing_of_bound {t : Target} {params bound : List (RegId × RegId)}
    (hparams : bindParameters t f.name 0 0 f.params = .ok params)
    (hreturns : bindReturns t f params = .ok (bound, g)) {id reg : RegId}
    (h : bound.lookup id = some reg) : ∃ first ∈ t.passing, reg = t.registers.root first := by
  obtain ⟨plan, hplan, -⟩ := bindReturns_plan hreturns
  rcases hplan.lookup_new h with hold | ⟨i, ty, -, -, hreg⟩
  · obtain ⟨p, -, -, ⟨-, rfl⟩ | hmem⟩ := mem_bindParameters hparams (mem_of_lookup_eq_some hold)
    · exact ⟨_, by simp [Target.passing], rfl⟩
    · obtain ⟨first, hfirst, rfl⟩ := List.mem_map.mp hmem
      refine ⟨first, ?_, rfl⟩
      simp only [List.drop_zero, List.mem_append] at hfirst
      rcases hfirst with hfirst | hfirst <;> simp [Target.passing, hfirst]
  · obtain ⟨first, hfirst, rfl⟩ := Option.map_eq_some_iff.mp hreg
    exact ⟨first, Lowering.mem_passing_resultsOf _ (List.mem_of_mem_head? hfirst), rfl⟩

theorem Scan.notes_start {bound : List (RegId × RegId)} (g : Function)
    (hbound : ∀ id reg, bound.lookup id = some reg → reg ∉ a.target.convention.calleeSaved) :
    Notes a { assigned := bound, pool := freePool a.target bound g, usedCalleeSaved := [] } where
  assigned id reg hid hsaved := absurd hsaved (hbound id reg hid)
  primary reg hreg hsaved := by
    have hcaller := (List.mem_filter.mp hreg).1
    have hnodup := a.regular.allocatable_nodup
    exact absurd rfl ((List.nodup_append.mp hnodup).2.2 reg hcaller reg hsaved)
  backup reg hreg := (List.mem_filter.mp hreg).1
  used := List.nil_subset _
  nodup := List.nodup_nil

/-- **Allocation notes every callee-saved register that it gives out**, once. -/
theorem notes_of_assignRegisters (hf : f.usedCalleeSaved = [])
    (h : f.assignRegisters a.target = .ok (alloc, g)) :
    (∀ id reg, alloc.assigned.lookup id = some reg → a.Spares g.usedCalleeSaved reg) ∧
      g.usedCalleeSaved ⊆ a.target.convention.calleeSaved ∧ g.usedCalleeSaved.Nodup := by
  obtain ⟨params, bound, g', s, hparams, hreturns, hscan, rfl, rfl⟩ :=
    exists_scan_of_assignRegisters h
  have hused : g'.usedCalleeSaved = [] := by
    obtain ⟨_, -, -, -, hg'⟩ := bindReturns_plan hreturns
    rw [hg']
    exact hf
  have hstart : Scan.Notes a
      { assigned := bound, pool := freePool a.target bound g',
        usedCalleeSaved := g'.usedCalleeSaved } := by
    rw [hused]
    refine Scan.notes_start g' fun id reg hid => ?_
    obtain ⟨first, hfirst, rfl⟩ := exists_passing_of_bound hparams hreturns hid
    exact a.not_calleeSaved.1 first hfirst
  have hend := hstart.run hscan
  exact ⟨hend.assigned, hend.used, hend.nodup⟩

theorem covered_moveReturn {used : List RegId} {isCaller : Bool} {i : Instruction}
    {home : Option RegId} (hi : i.Covered a used isCaller)
    (hhome : ∀ reg, home = some reg →
      a.target.registers.root reg ∉ a.target.convention.calleeSaved) :
    ∀ j ∈ moveReturn a.target i home, j.Covered a used isCaller := by
  unfold moveReturn
  split
  · next reg value hvalue =>
    have hdest : (Operand.physicalReg (a.target.registers.withWidth reg value.size) value.ty
        ).Spared a used := by
      intro root hroot hsaved
      cases hroot
      rw [a.root_withWidth] at hsaved
      exact absurd hsaved (hhome reg rfl)
    have hsource := hi.operands value (List.mem_of_getElem? hvalue)
    simp only [List.forall_mem_cons, List.not_mem_nil, false_implies, implies_true, and_true]
    refine ⟨Instruction.covered_generic ?_ (by simp [hdest, hsource]), hi.replaceOperand 0 hdest⟩
    split <;> rfl
  · simpa using hi

theorem Covers.assignRegisters (hf : f.Covers a)
    (h : f.assignRegisters a.target = .ok (alloc, g)) :
    g.isCaller = f.isCaller ∧ g.All (·.Covered a f.usedCalleeSaved f.isCaller) := by
  obtain ⟨params, bound, g', s, -, hreturns, -, -, rfl⟩ := assignRegisters_cases a.regular h
  obtain ⟨plan, hplan, hfst, hcode, hg'⟩ := bindReturns_plan hreturns
  refine ⟨by rw [hg'], fun i hi => ?_⟩
  replace hi : i ∈ g'.instructions := hi
  rw [hcode, Plan.code, List.mem_flatMap] at hi
  obtain ⟨⟨j, home⟩, hj, hi⟩ := hi
  refine covered_moveReturn (hf j ?_) (fun reg hreg => ?_) i hi
  · rw [← hfst]
    exact List.mem_map_of_mem hj
  · cases hreg
    obtain ⟨_, ty, -, hroot, -⟩ := hplan.moved_elsewhere hj
    obtain ⟨first, hfirst, rfl⟩ := Option.map_eq_some_iff.mp hroot
    rw [a.regular.flat.root_root]
    exact a.not_calleeSaved.1 first
      (Lowering.mem_passing_resultsOf _ (List.mem_of_mem_head? hfirst))

section

variable {assigned : List (RegId × RegId)} {used : List RegId}
  (hassigned : ∀ id reg, assigned.lookup id = some reg →
    a.target.registers.root reg = reg ∧ a.Spares used reg)
include hassigned

theorem spared_withWidth {id reg : RegId} (h : assigned.lookup id = some reg) (bits : Nat)
    (ty : LowType) :
    (Operand.physicalReg (a.target.registers.withWidth reg bits) ty).Spared a used := by
  intro root hroot
  cases hroot
  obtain ⟨hfull, hspares⟩ := hassigned id reg h
  rwa [a.root_withWidth, hfull]

theorem spared_placeOperand {name : String} {o o' : Operand} (ho : o.Spared a used)
    (h : placeOperand a.target name assigned o = .ok o') : o'.Spared a used := by
  obtain ⟨kind, ty, regClass⟩ := o
  cases kind with
  | virtualReg id | parameter id =>
    obtain ⟨reg, hreg, h⟩ := bind_eq_ok.mp h
    cases h
    exact spared_withWidth hassigned (orFail_eq_ok.mp hreg) _ ty
  | _ =>
    cases h
    exact ho

/-- The base of a place in memory is the stack pointer or an assigned register. -/
theorem spared_resolveMemory {o : Operand} {base : RegId} {offset : Int}
    (h : resolveMemory a.target f assigned o = .ok (base, offset)) (ty : LowType) :
    (Operand.physicalReg base ty).Spared a used := by
  obtain ⟨kind, ty', regClass⟩ := o
  cases kind with
  | stack slot n =>
    obtain ⟨position?, -, h⟩ := bind_eq_ok.mp h
    obtain ⟨position, -, h⟩ := bind_eq_ok.mp h
    obtain ⟨offset', -, h⟩ := bind_eq_ok.mp h
    cases h
    intro root hroot hsaved
    cases hroot
    exact absurd hsaved a.not_calleeSaved.2.1
  | memory id n =>
    obtain ⟨reg, hreg, h⟩ := bind_eq_ok.mp h
    cases h
    exact spared_withWidth hassigned (orFail_eq_ok.mp hreg) _ ty
  | _ => cases h

theorem covered_placeInstruction {isCaller : Bool} {i j : Instruction}
    (hi : i.Covered a used isCaller) (h : placeInstruction a.target f assigned i = .ok j) :
    j.Covered a used isCaller := by
  obtain ⟨operands, hoperands, hcases⟩ := placeInstruction_cases h
  have hspared : ∀ o ∈ operands, o.Spared a used := by
    intro o ho
    obtain ⟨o', ho', hplaced⟩ := exists_of_mem_mapM_eq_ok hoperands ho
    exact spared_placeOperand hassigned (hi.operands o' ho') hplaced
  obtain ⟨-, rfl⟩ | ⟨before, place, after, base, offset, rfl, -, -, hresolve, rfl⟩ := hcases
  · exact ⟨hspared, hi.caller⟩
  · refine ⟨fun o ho => ?_, hi.caller⟩
    rcases List.mem_append.mp ho with ho | ho
    · refine hspared o ?_
      simp only [List.mem_append, List.mem_cons] at ho ⊢
      exact ho.imp_right .inr
    · simp only [List.mem_cons, List.not_mem_nil, or_false] at ho
      rcases ho with rfl | rfl
      · exact spared_resolveMemory hassigned hresolve _
      · nofun

end

/-- **Allocated code names callee-saved registers only if they are noted.** -/
theorem Covers.allocateRegisters (hf : f.Covers a) (hunused : f.usedCalleeSaved = [])
    (h : f.allocateRegisters a.target = .ok g) :
    g.Covers a ∧ g.usedCalleeSaved ⊆ a.target.convention.calleeSaved ∧ g.usedCalleeSaved.Nodup := by
  obtain ⟨alloc, f', blocks, hassign, rfl, hblocks⟩ := exists_placed_of_allocateRegisters h
  obtain ⟨hnotes, hsub, hnodup⟩ := notes_of_assignRegisters hunused hassign
  obtain ⟨hcaller, hcode⟩ := hf.assignRegisters hassign
  refine ⟨fun j hj => ?_, hsub, hnodup⟩
  obtain ⟨i, hi, hplace⟩ := exists_mem_of_forall₂ (forall₂_instructions hblocks).flip hj
  have hi' := hcode i hi
  rw [hunused, ← hcaller] at hi'
  exact covered_placeInstruction
    (fun id reg hid => ⟨root_of_assigned a.regular hassign hid, hnotes id reg hid⟩)
    (hi'.mono (List.nil_subset _)) hplace

end Machine.Function

end Retarget
