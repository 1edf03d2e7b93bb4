import Retarget.Proofs.Banks.Classes
import Retarget.Proofs.Convention.Passing
import Retarget.Proofs.RangeClasses
import Retarget.Proofs.Shape.Pipeline

/-!
# Register files after allocation

On AArch64, a register that the calling convention binds an id to is of the file of the id's type,
and any other id gets a register of its class.  So an operand ends up in the file of its type exactly
if its id is bound or resides there (`registers_follow_types`).  A value that is loaded back as
another type resides elsewhere, and so does the source of a cast to a floating-point type that is
named before it is defined (`displaced_registers`).
-/

namespace Retarget

open Machine

/-! ## Files of AArch64 registers -/

namespace Target.AArch64

theorem isFloat_root (id : RegId) : registers.isFloat (registers.root id) = registers.isFloat id := by
  by_cases hid : id < 129
  · exact (by decide +kernel : ∀ id < 129,
      registers.isFloat (registers.root id) = registers.isFloat id) id hid
  · have hviews : ∀ r ∈ registers.file, ∀ v ∈ r.views, v < 129 := by decide +kernel
    have hnone : registers.parent? id = none := by
      rw [Registers.parent?, Option.map_eq_none_iff, List.find?_eq_none]
      intro r hr hmem
      exact hid (hviews r hr id (List.contains_iff_mem.mp hmem))
    rw [Registers.root, hnone]
    rfl

theorem isFloat_withWidth (id : RegId) (bits : Nat) :
    registers.isFloat (registers.withWidth id bits) = registers.isFloat id := by
  rw [← isFloat_root, ← isFloat_root id]
  exact congrArg registers.isFloat (Arch.aarch64.root_withWidth id bits)

theorem isFloat_of_inClass? {reg : RegId} {bits : Nat} {isFloat : Bool}
    (h : (registers.inClass? reg (classFor bits isFloat)).isSome) :
    registers.isFloat reg = isFloat := by
  have hclass : classFor bits isFloat = classFor (if bits ≤ 32 then 32 else 64) isFloat := by
    cases isFloat <;> by_cases hbits : bits ≤ 32 <;> simp [classFor, hbits]
  have hsmall : ∀ reg < 129, ∀ isFloat, ∀ bits ∈ [32, 64],
      (registers.inClass? reg (classFor bits isFloat)).isSome → registers.isFloat reg = isFloat := by
    decide +kernel
  rw [hclass] at h
  by_cases hreg : reg < 129
  · refine hsmall reg hreg isFloat _ ?_ h
    split <;> simp
  · have hlength : registers.file.length = 129 := by decide +kernel
    have hget : registers.get? reg = none :=
      List.getElem?_eq_none (hlength ▸ Nat.le_of_not_lt hreg)
    have hle : 129 ≤ reg := Nat.le_of_not_lt hreg
    have hbeyond {n : Nat} (hn : n ≤ 129) : ¬reg < n := Nat.not_lt.mpr (Nat.le_trans hn hle)
    have hother {n : Nat} (hn : n < 129) : reg ≠ n := Nat.ne_of_gt (Nat.lt_of_lt_of_le hn hle)
    have hof : registers.classOf? reg = none := by
      show classOf? reg = none
      rw [classOf?, if_neg (hbeyond (by decide)), if_neg (hbeyond (by decide)),
        if_neg (hbeyond (by decide)), if_neg (hbeyond (by decide)),
        if_neg (not_or.mpr ⟨hother (by decide), hother (by decide)⟩), if_neg (hother (by decide))]
    rw [Registers.inClass?, hof, hget] at h
    cases h

theorem isFloat_argumentsOf (isFloat : Bool) :
    ∀ reg ∈ (convention.argumentsOf isFloat).map registers.root, registers.isFloat reg = isFloat := by
  cases isFloat <;> decide +kernel

theorem isFloat_resultsOf (isFloat : Bool) :
    ∀ reg ∈ (convention.resultsOf isFloat).map registers.root, registers.isFloat reg = isFloat := by
  cases isFloat <;> decide +kernel

end Target.AArch64

theorem RegisterPool.inClass?_of_take {p p' : RegisterPool}
    {rs : Target.Registers} {c : RegClass} {taken : RegisterPool.Taken}
    (h : p.take rs c = some (taken, p')) : (rs.inClass? taken.reg c).isSome := by
  rw [RegisterPool.take] at h
  split at h
  · next hfind =>
    cases h
    have hfits := List.find?_some hfind
    exact hfits
  · split at h
    · next hfind =>
      cases h
      have hfits := List.find?_some hfind
      exact hfits
    · cases h

namespace Machine

/-! ## Ranges have the classes of their ids -/

theorem Operand.classOf?_eq_some_iff {o : Operand} {id : RegId} {c : RegClass} :
    o.classOf? id = some c ↔ o.value? = some id ∧ o.regClass = some c := by
  obtain ⟨kind, ty, regClass⟩ := o
  cases kind <;> simp [classOf?, value?]

namespace Function

theorem exists_regClass {g : Function} {F : RegId → RegClass → Prop}
    (h : g.All fun i => ∀ o ∈ i.operands, ∀ id, o.value? = some id →
      ∃ c, o.regClass = some c ∧ F id c) {r : LiveRange} (hr : r ∈ g.liveRanges)
    {i : Instruction} (hi : i ∈ g.instructions) {o : Operand} (ho : o ∈ i.operands)
    (hid : o.value? = some r.reg) : ∃ c, r.regClass = some c ∧ F r.reg c := by
  rw [g.classed_liveRanges.known r hr]
  obtain ⟨c, hc, -⟩ := h i hi o ho r.reg hid
  have hsome : ((g.instructions.flatMap (·.operands)).findSome? (·.classOf? r.reg)).isSome :=
    List.findSome?_isSome_iff.mpr ⟨o, List.mem_flatMap.mpr ⟨i, hi, ho⟩, by
      rw [Operand.classOf?_eq_some_iff.mpr ⟨hid, hc⟩]
      rfl⟩
  obtain ⟨first, hfirst⟩ := Option.isSome_iff_exists.mp hsome
  obtain ⟨o', ho', hclass⟩ := List.exists_of_findSome?_eq_some hfirst
  obtain ⟨i', hi', ho'⟩ := List.mem_flatMap.mp ho'
  obtain ⟨hid', hclass⟩ := Operand.classOf?_eq_some_iff.mp hclass
  obtain ⟨c', hc', hfits⟩ := h i' hi' o' ho' r.reg hid'
  cases hclass.symm.trans hc'
  exact ⟨_, hfirst, hfits⟩

/-! ## Bindings -/

/-- The registers that the calling convention binds ids to: those of parameters, and the result
register of returned values that need no move. -/
def bindings (t : Target) (f : Function) : Result (List (RegId × RegId)) := do
  let params ← bindParameters t f.name 0 0 f.params
  let (bound, _) ← bindReturns t f params
  return bound

/-- The id is bound by the calling convention. -/
def IsBound (t : Target) (f : Function) (id : RegId) : Prop :=
  ∃ bound, f.bindings t = .ok bound ∧ (bound.lookup id).isSome

/-- A parameter is bound to the register of the return buffer if it holds one, and to a register for
arguments of its kind otherwise. -/
theorem mem_bindParameters_argumentsOf {t : Target} {name : String} {next nextFloat : Nat}
    {params : List Parameter} {bound : List (RegId × RegId)}
    (h : bindParameters t name next nextFloat params = .ok bound) {id reg : RegId}
    (hmem : (id, reg) ∈ bound) : ∃ p ∈ params, p.id = id ∧ (p.isReturnBuffer ∧ reg = t.bufferRoot ∨
      reg ∈ (t.convention.argumentsOf p.isFloat).map t.registers.root) := by
  induction params generalizing next nextFloat bound with
  | nil =>
    cases h
    cases hmem
  | cons p params ih =>
    -- what binds `p` to a register leaves the other bindings as they are
    have hstep {bound' : List (RegId × RegId)} {reg' : RegId} {n m : Nat}
        (hrest : bindParameters t name n m params = .ok bound')
        (hmem : (id, reg) ∈ bindBefore p.id reg' bound')
        (hreg' : p.isReturnBuffer ∧ reg' = t.bufferRoot ∨
          reg' ∈ (t.convention.argumentsOf p.isFloat).map t.registers.root) :
        ∃ q ∈ p :: params, q.id = id ∧ (q.isReturnBuffer ∧ reg = t.bufferRoot ∨
          reg ∈ (t.convention.argumentsOf q.isFloat).map t.registers.root) := by
      rcases mem_bindBefore hmem with heq | hmem
      · cases heq
        exact ⟨p, List.mem_cons_self, rfl, hreg'⟩
      · obtain ⟨q, hq, hrest⟩ := ih hrest hmem
        exact ⟨q, List.mem_cons_of_mem _ hq, hrest⟩
    rw [bindParameters] at h
    split at h
    · next hbuffer =>
      obtain ⟨bound', hrest, h⟩ := bind_eq_ok.mp h
      cases h
      exact hstep hrest hmem (.inl ⟨hbuffer, rfl⟩)
    · split at h
      all_goals
        next hfloat =>
        obtain ⟨reg', hreg', h⟩ := bind_eq_ok.mp h
        obtain ⟨bound', hrest, h⟩ := bind_eq_ok.mp h
        cases h
        refine hstep hrest hmem (.inr (List.mem_map_of_mem ?_))
        rw [Target.Convention.argumentsOf]
        simpa [hfloat] using List.mem_of_getElem? (orFail_eq_ok.mp hreg')

variable {f g : Function} {kinds : List Bool} {bound params : List (RegId × RegId)}
  {id reg : RegId} {t : Target}

/-- The types of registers say of their ids what `kinds` says. -/
def Typed (kinds : List Bool) (f : Function) : Prop :=
  f.All fun i => ∀ o ∈ i.operands, ∀ id, o.value? = some id → kinds[id]? = some o.ty.isFloat

/-- **Bindings keep to the files.** -/
theorem isFloat_of_bound (hcode : f.Typed kinds)
    (hincoming : ∀ p ∈ f.params, kinds[p.id]? = some p.isFloat ∧
      (p.isReturnBuffer → p.isFloat = false))
    (hparams : bindParameters .aarch64 f.name 0 0 f.params = .ok params)
    (hreturns : bindReturns .aarch64 f params = .ok (bound, g)) (hid : bound.lookup id = some reg) :
    kinds[id]? = some (Target.AArch64.registers.isFloat reg) := by
  obtain ⟨plan, hplan, hfst, -, -⟩ := bindReturns_plan hreturns
  rcases hplan.lookup_new hid with hparam | ⟨i, ty, hmem, hreturned, hresult⟩
  · obtain ⟨p, hp, rfl, ⟨hbuffer, rfl⟩ | hreg⟩ :=
      mem_bindParameters_argumentsOf hparams (mem_of_lookup_eq_some hparam)
    · rw [(hincoming p hp).1, (hincoming p hp).2 hbuffer]
      decide +kernel
    · rw [(hincoming p hp).1, Target.AArch64.isFloat_argumentsOf _ reg hreg]
  · obtain ⟨-, value, rest, hoperands, hkind, hvalue, rfl⟩ := returned?_eq_some hreturned
    have hi : i ∈ f.instructions := hfst ▸ List.mem_map_of_mem (f := Prod.fst) hmem
    have hmemory : value.isMemory = false := by
      obtain ⟨kind, ty, regClass⟩ := value
      cases kind <;> first | rfl | simp [Operand.isVirtual, Operand.isParameter] at hkind
    rw [Operand.unallocated?_eq_value? hmemory] at hvalue
    rw [hcode i hi value (by simp [hoperands]) id hvalue]
    obtain ⟨first, hfirst, rfl⟩ := Option.map_eq_some_iff.mp hresult
    exact congrArg some (Target.AArch64.isFloat_resultsOf value.ty.isFloat _
      (List.mem_map_of_mem (List.mem_of_head? hfirst))).symm

theorem Plan.mem_operands_code {plan : List (Instruction × Option RegId)} {j : Instruction}
    (hj : j ∈ Plan.code t plan) {o : Operand} (ho : o ∈ j.operands) (hid : o.value? = some id) :
    ∃ i ∈ plan.map (·.1), o ∈ i.operands := by
  obtain ⟨⟨i, home⟩, he, hj⟩ := List.mem_flatMap.mp hj
  refine ⟨i, List.mem_map_of_mem (f := Prod.fst) he, ?_⟩
  unfold moveReturn at hj
  split at hj
  · next home value hvalue =>
    rcases List.mem_cons.mp hj with rfl | hj
    · rcases List.mem_cons.mp ho with rfl | ho
      · cases hid
      · exact List.mem_singleton.mp ho ▸ List.mem_of_getElem? hvalue
    · cases List.mem_singleton.mp hj
      rcases List.mem_or_eq_of_mem_set ho with ho | rfl
      · exact ho
      · cases hid
  · rw [List.mem_singleton.mp hj] at ho
    exact ho

/-! ## The scan -/

/-- A range that is not bound gets a register with a view in its class. -/
structure Scan.Follows (t : Target) (bound : List (RegId × RegId)) (ranges : List LiveRange)
    (s : Scan) : Prop where
  kept : ∀ id reg, bound.lookup id = some reg → s.assigned.lookup id = some reg
  origin : ∀ id reg, s.assigned.lookup id = some reg → bound.lookup id = some reg ∨
    bound.lookup id = none ∧ ∃ r ∈ ranges, r.reg = id ∧ (t.registers.inClass? reg
      (r.regClass.getD (t.registers.classFor t.pointerBits false))).isSome

theorem Scan.Follows.start (t : Target) (bound : List (RegId × RegId)) (ranges : List LiveRange)
    (pool : RegisterPool) (used : List RegId) : Scan.Follows t bound ranges
      { assigned := bound, pool := pool, usedCalleeSaved := used } :=
  ⟨fun _ _ h => h, fun _ _ h => .inl h⟩

theorem Scan.Follows.place {name : String} {ranges : List LiveRange} {s s' : Scan} {r : LiveRange}
    (h : s.Follows t bound ranges) (hr : r ∈ ranges) (hplace : place t name s r = .ok s') :
    s'.Follows t bound ranges := by
  rw [Scan.place] at hplace
  split at hplace
  · cases hplace
    exact h
  · next hnone =>
    have hnone : s.assigned.lookup r.reg = none := Option.not_isSome_iff_eq_none.mp hnone
    obtain ⟨⟨taken, pool⟩, htake, hplace⟩ := bind_eq_ok.mp hplace
    cases hplace
    have hfits := RegisterPool.inClass?_of_take (orFail_eq_ok.mp htake)
    refine ⟨fun id reg hid => lookup_cons_of_lookup hnone (h.kept id reg hid), fun id reg hid => ?_⟩
    rw [List.lookup_cons] at hid
    split at hid
    · next heq =>
      cases hid
      refine .inr ⟨?_, r, hr, (eq_of_beq heq).symm, hfits⟩
      cases hbound : bound.lookup id with
      | none => rfl
      | some reg =>
        have hassigned := h.kept id reg hbound
        rw [eq_of_beq heq, hnone] at hassigned
        cases hassigned
    · exact h.origin id reg hid

theorem Scan.Follows.run {name : String} {ranges rest : List LiveRange} {s s' : Scan}
    (h : s.Follows t bound ranges) (hrest : rest ⊆ ranges)
    (hscan : rest.foldlM (Scan.place t name) s = .ok s') : s'.Follows t bound ranges :=
  foldlM_eq_ok h (fun _ hr _ _ hs hplace => hs.place (hrest hr) hplace) hscan

/-! ## Files after allocation -/

theorem assignRegisters_follows {a : Allocation} (h : f.assignRegisters t = .ok (a, g)) :
    ∃ params bound g', bindParameters t f.name 0 0 f.params = .ok params ∧
      bindReturns t f params = .ok (bound, g') ∧ g.instructions = g'.instructions ∧
      ∀ id reg, a.assigned.lookup id = some reg → bound.lookup id = some reg ∨
        bound.lookup id = none ∧ ∃ r ∈ g'.liveRanges, r.reg = id ∧ (t.registers.inClass? reg
          (r.regClass.getD (t.registers.classFor t.pointerBits false))).isSome := by
  obtain ⟨params, bound, g', s, hparams, hreturns, hscan, rfl, rfl⟩ :=
    exists_scan_of_assignRegisters h
  exact ⟨params, bound, g', hparams, hreturns, rfl,
    ((Scan.Follows.start ..).run (List.Subset.refl _) hscan).origin⟩

/-- A placed instruction names the registers of the operands that have no place in memory. -/
theorem mem_placeInstruction {assigned : List (RegId × RegId)} {i j : Instruction}
    (h : placeInstruction t f assigned i = .ok j) {o : Operand} (ho : o ∈ i.operands)
    (hid : o.value? = some id) : ∃ reg, assigned.lookup id = some reg ∧
      o.setPhysical (t.registers.withWidth reg o.size) ∈ j.operands := by
  obtain ⟨operands, hoperands, hcases⟩ := placeInstruction_cases h
  obtain ⟨o', ho', hplaced⟩ := exists_mem_of_mapM_eq_ok hoperands ho
  have hassigned : assignedReg f.name assigned id >>= (fun reg =>
      pure (o.setPhysical (t.registers.withWidth reg o.size))) = .ok o' := by
    rw [placeOperand] at hplaced
    obtain ⟨kind, ty, regClass⟩ := o
    cases kind <;> cases hid <;> exact hplaced
  obtain ⟨reg, hreg, heq⟩ := bind_eq_ok.mp hassigned
  cases heq
  refine ⟨reg, orFail_eq_ok.mp hreg, ?_⟩
  obtain ⟨-, rfl⟩ | ⟨before, place, after, base, offset, rfl, -, hplace, -, rfl⟩ := hcases
  · exact ho'
  · refine List.mem_append_left _ ?_
    simp only [List.mem_append, List.mem_cons] at ho' ⊢
    refine ho'.imp_right fun ho' => ho'.resolve_left ?_
    rintro rfl
    cases hplace

theorem typed_selectClasses (hf : f.Kinded kinds) (t : Target) : (f.selectClasses t).Typed kinds := by
  intro i hi o ho id hid
  have hrecast := forall₂_instructions (recast_selectClasses t f)
  obtain ⟨before, after, hsplit⟩ := List.append_of_mem hi
  rw [show (f.selectClasses t).blocks.flatMap (·.instructions) = _ from hsplit] at hrecast
  obtain ⟨before₀, i₀, after₀, heq, -, hi₀, -⟩ := exists_cons_of_forall₂_cons hrecast
  obtain ⟨first, rest, hos⟩ := List.append_of_mem ho
  obtain ⟨first₀, o₀, rest₀, heq', -, ⟨hkind, hty⟩, -⟩ :=
    exists_cons_of_forall₂_cons (hos ▸ hi₀.operands)
  have hmem : i₀ ∈ f.instructions := by
    rw [instructions, heq]
    simp
  rw [hty]
  refine ((hf.code i₀ hmem).operands o₀ (by simp [heq'])).value id ?_
  rw [Operand.value?, ← hkind]
  exact hid

/-- `j` is `i` over physical registers, and each register of `i` is one of the file of its type in
`j` exactly if the calling convention binds it or the code puts it there, which it does if operations
and reloads agree with the types. -/
structure KeepsFiles (l f' : Function) (assigned : List (RegId × RegId)) (i j : Instruction) :
    Prop where
  placed : placeInstruction .aarch64 f' assigned i = .ok j
  files : ∀ o ∈ i.operands, ∀ id, o.value? = some id → ∃ reg, o.setPhysical reg ∈ j.operands ∧
    (Target.AArch64.registers.isFloat reg = o.ty.isFloat ↔
      (l.selectClasses .aarch64).IsBound .aarch64 id ∨ l.Resides id o.ty.isFloat) ∧
    ∀ kinds, l.Kinded kinds → l.Agrees kinds →
      Target.AArch64.registers.isFloat reg = o.ty.isFloat

/-- **Allocation follows the classes**, and these follow the code. -/
theorem allocateRegisters_files {l r : Function} (hl : l.Kinded kinds) (hloads : l.LoadsRegisters)
    (hr : (l.selectClasses .aarch64).allocateRegisters .aarch64 = .ok r) :
    ∃ alloc f', (l.selectClasses .aarch64).assignRegisters .aarch64 = .ok (alloc, f') ∧
      List.Forall₂ (KeepsFiles l f' alloc.assigned) f'.instructions r.instructions := by
  obtain ⟨alloc, f', blocks, hassign, rfl, hblocks⟩ := exists_placed_of_allocateRegisters hr
  refine ⟨alloc, f', hassign, ?_⟩
  have hplaced : List.Forall₂ (fun i j => placeInstruction .aarch64 f' alloc.assigned i = .ok j)
      f'.instructions ({ f' with blocks := blocks } : Function).instructions :=
    forall₂_instructions hblocks
  obtain ⟨params, bound, g', hparams, hreturns, hcode, horigin⟩ := assignRegisters_follows hassign
  obtain ⟨plan, hplan, hfst, hplanned, -⟩ := bindReturns_plan hreturns
  have htyped := typed_selectClasses hl .aarch64
  have hselected : ∀ i ∈ f'.instructions, ∀ o ∈ i.operands, ∀ id, o.value? = some id →
      ∃ i₀ ∈ (l.selectClasses .aarch64).instructions, o ∈ i₀.operands := by
    intro i hi o ho id hid
    rw [hcode, hplanned] at hi
    rw [← hfst]
    exact Plan.mem_operands_code hi ho hid
  have hclasses : g'.All fun i => ∀ o ∈ i.operands, ∀ id, o.value? = some id →
      ∃ c, o.regClass = some c ∧ l.Fits .aarch64 id c := by
    intro i hi o ho id hid
    obtain ⟨i₀, hi₀, ho₀⟩ := hselected i (hcode ▸ hi) o ho id hid
    exact fits_selectClasses hl hloads i₀ hi₀ o ho₀ id hid
  have hbindings : (l.selectClasses .aarch64).bindings .aarch64 = .ok bound := by
    rw [bindings, hparams, ok_bind, hreturns]
    rfl
  refine (forall₂_imp_mem hplaced.flip fun j i hi hplace =>
    (⟨hplace, fun o ho id hid => ?_⟩ : KeepsFiles l f' alloc.assigned i j)).flip
  obtain ⟨reg, hreg, hmem⟩ := mem_placeInstruction hplace ho hid
  refine ⟨_, hmem, ?_⟩
  have hwidth : Target.AArch64.registers.isFloat (Target.aarch64.registers.withWidth reg o.size) =
      Target.AArch64.registers.isFloat reg := Target.AArch64.isFloat_withWidth reg o.size
  rw [hwidth]
  obtain ⟨i₀, hi₀, ho₀⟩ := hselected i hi o ho id hid
  rcases horigin id reg hreg with hbound | ⟨hnone, range, hrange, rfl, hfits⟩
  · have hkind := htyped i₀ hi₀ o ho₀ id hid
    rw [isFloat_of_bound htyped hl.incoming hparams hreturns hbound] at hkind
    have hfile := Option.some.inj hkind
    exact ⟨iff_of_true hfile (.inl ⟨bound, hbindings, by simp [hbound]⟩), fun _ _ _ => hfile⟩
  · have hunbound : ¬(l.selectClasses .aarch64).IsBound .aarch64 range.reg := by
      rintro ⟨bound', hbound', hsome⟩
      cases hbindings.symm.trans hbound'
      simp [hnone] at hsome
    obtain ⟨c, hc, bits, isFloat, rfl, hresides⟩ :=
      exists_regClass hclasses hrange (hcode ▸ hi) ho hid
    rw [hc, Option.getD_some] at hfits
    rw [Target.AArch64.isFloat_of_inClass? hfits]
    refine ⟨?_, fun kinds' hkinds hagrees => ?_⟩
    · rw [hresides]
      exact ⟨fun h => .inr h.symm, fun h => (h.resolve_left hunbound).symm⟩
    · have hfile := resides_of_agrees hkinds hagrees ((hresides isFloat).mpr rfl)
      rw [typed_selectClasses hkinds .aarch64 i₀ hi₀ o ho₀ range.reg hid] at hfile
      exact (Option.some.inj hfile).symm

theorem GenericOp.head?_layouts {op : GenericOp} (hop : op ≠ .store) {layout : List Bool}
    (h : layout ∈ op.layouts) : ∀ isPlace ∈ layout.head?, isPlace = false := by
  cases op with
  | store => exact absurd rfl hop
  | branch | ret =>
    rcases List.mem_cons.mp h with rfl | h
    · simp
    · simp [List.mem_singleton.mp h]
  | _ => simp [List.mem_singleton.mp h]

theorem loadsRegisters_of_shaped {slots : List Slot} (hf : f.All (·.Shaped t slots))
    (hkinds : f.Kinded kinds) : f.LoadsRegisters := by
  intro i hi hload d hd
  have hlayout : i.layout.head? = some d.isPlace := by
    rw [Instruction.layout, Instruction.operands_of_def? hd]
    rfl
  have hplace : d.isPlace = false := by
    have hform := (hf i hi).form
    cases hop : i.opcode with
    | generic op =>
      rw [hop] at hform
      refine GenericOp.head?_layouts ?_ hform _ hlayout
      rintro rfl
      have hunloaded := (hkinds.code i hi).unloaded (by rw [Instruction.generic?, hop]; rfl)
      cases hload.symm.trans hunloaded
    | native n =>
      rw [hop] at hform
      cases hplace : d.isPlace with
      | false => rfl
      | true => exact absurd (hplace ▸ List.mem_of_head? hlayout) hform.2
  obtain ⟨kind, ty, regClass⟩ := d
  cases kind <;> first | rfl | cases hplace

/-- **Values stay in the register file of their type where the code puts them there**: if the module
keeps values of the two kinds apart, then after allocation for AArch64, an operand that was a virtual
register or a parameter is a register of the file of its type exactly if the calling convention binds
its id, as that of a parameter or of a returned value, or the id resides in the file of the type. -/
theorem registers_follow_types {m : Ir.Module} {l r : Function}
    (hm : ∀ source ∈ m.functions, ∃ floats, source.KeepsKinds floats)
    (hf : Target.aarch64.ProducesFrom m f) (hl : f.legalize .aarch64 = .ok l)
    (hr : (l.selectClasses .aarch64).allocateRegisters .aarch64 = .ok r) :
    ∃ alloc f', (l.selectClasses .aarch64).assignRegisters .aarch64 = .ok (alloc, f') ∧
      List.Forall₂ (KeepsFiles l f' alloc.assigned) f'.instructions r.instructions := by
  obtain ⟨kinds, hkinds⟩ := kinded_of_producesFrom hf hm hl
  have hshaped := shaped_legalize (a := .aarch64) hf.produces.shaped hl
  exact allocateRegisters_files hkinds (loadsRegisters_of_shaped hshaped hkinds) hr

end Function

end Machine

/-! ## Values in the other file -/

/-- Operations on integers have operands and results that are not floating-point numbers, and
operations on floating-point numbers have such. -/
def Ir.Instruction.isHomogeneous : Instruction → Bool
  | .binary _ op lhs rhs ty =>
    lhs.ty.isFloat == op.isFloat && rhs.ty.isFloat == op.isFloat && ty.isFloat == op.isFloat
  | .compare _ _ lhs rhs => lhs.ty.isFloat == rhs.ty.isFloat
  | .unary _ .ftoi operand ty => operand.ty.isFloat && !ty.isFloat
  | .unary _ .itof operand ty => !operand.ty.isFloat && ty.isFloat
  | .unary _ .bitcast .. => true
  | .unary _ _ operand ty => !operand.ty.isFloat && !ty.isFloat
  | _ => true

namespace Machine.Function

/-- A number that is kept in the frame and loaded back as an integer, to be added to itself. -/
def rereading : Ir.Function where
  name := "f"
  returnType := .i64
  parameters := [⟨"x", .f64, false⟩]
  blocks := [⟨"entry", [.stackAlloc 0 "a" .f64, .store (.param "x" .f64) (.temp 0 (.ptr .f64)),
    .load 1 (.temp 0 (.ptr .f64)) .i64, .binary 2 .add (.temp 1 .i64) (.temp 1 .i64) .i64,
    .ret (some (.temp 2 .i64))]⟩]

theorem producesFrom_singleton {t : Target} {source : Ir.Function} {f : Function}
    (hsource : source.isDeclaration = false) (h : Lowering.lowerFunction t source = .ok f) :
    t.ProducesFrom ⟨"m", [source], []⟩ f := by
  refine ⟨⟨[f], []⟩, ?_, f, by simp, .inl rfl⟩
  simp [Lowering.lowerModule, hsource, h]

theorem keepsKinds_rereading : rereading.KeepsKinds fun _ => false := by
  constructor <;> simp [rereading, Ir.Function.instructions, Ir.Instruction.uses,
    Ir.Value.StatesKind, Ir.Instruction.GivesKind] <;> decide

theorem registers_follow_types_rereading : ∃ f l r,
    (∀ source ∈ (⟨"m", [rereading], []⟩ : Ir.Module).functions,
      ∃ floats, source.KeepsKinds floats) ∧
    Target.aarch64.ProducesFrom ⟨"m", [rereading], []⟩ f ∧ f.legalize .aarch64 = .ok l ∧
    (l.selectClasses .aarch64).allocateRegisters .aarch64 = .ok r ∧
    ∃ alloc f', (l.selectClasses .aarch64).assignRegisters .aarch64 = .ok (alloc, f') ∧
      List.Forall₂ (KeepsFiles l f' alloc.assigned) f'.instructions r.instructions := by
  have hm : ∀ source ∈ (⟨"m", [rereading], []⟩ : Ir.Module).functions,
      ∃ floats, source.KeepsKinds floats :=
    fun source hsource => List.mem_singleton.mp hsource ▸ ⟨_, keepsKinds_rereading⟩
  have hcompiles : (do
      let f ← Lowering.lowerFunction .aarch64 rereading
      let l ← f.legalize .aarch64
      let r ← (l.selectClasses .aarch64).allocateRegisters .aarch64
      pure r.instructions.length) = .ok 4 := by decide +kernel
  obtain ⟨f, hf, hcompiles⟩ := bind_eq_ok.mp hcompiles
  obtain ⟨l, hl, hcompiles⟩ := bind_eq_ok.mp hcompiles
  obtain ⟨r, hr, -⟩ := bind_eq_ok.mp hcompiles
  have hproduces : Target.aarch64.ProducesFrom ⟨"m", [rereading], []⟩ f :=
    producesFrom_singleton rfl hf
  exact ⟨f, l, r, hm, hproduces, hl, hr, registers_follow_types hm hproduces hl hr⟩

/-- A number whose bits are taken in a block that stands before the one that computes it. -/
def castAhead : Ir.Function where
  name := "f"
  returnType := .f64
  parameters := [⟨"p", .i64, false⟩]
  blocks := [⟨"entry", [.jump "last"]⟩,
    ⟨"middle", [.unary 1 .bitcast (.temp 0 .i64) .f64, .ret (some (.temp 1 .f64))]⟩,
    ⟨"last", [.binary 0 .add (.param "p" .i64) (.param "p" .i64) .i64, .jump "middle"]⟩]

/-- A temporary that is loaded as a floating-point number and added as an integer. -/
def restating : Ir.Function where
  name := "f"
  returnType := .i64
  parameters := [⟨"p", .ptr .f64, false⟩]
  blocks := [⟨"entry", [.load 0 (.param "p" (.ptr .f64)) .f64,
    .binary 1 .add (.temp 0 .i64) (.temp 0 .i64) .i64, .ret (some (.temp 1 .i64))]⟩]

theorem keepsKinds_castAhead : castAhead.KeepsKinds (· == 1) := by
  constructor <;> simp [castAhead, Ir.Function.instructions, Ir.Instruction.uses,
    Ir.Value.StatesKind, Ir.Instruction.GivesKind] <;> decide

/-- Some register of the compiled function is in the other file than its type says. -/
def Displaces (source : Ir.Function) : Prop :=
  ∃ f l alloc f' r, Target.aarch64.ProducesFrom ⟨"m", [source], []⟩ f ∧
    f.legalize .aarch64 = .ok l ∧
    (l.selectClasses .aarch64).assignRegisters .aarch64 = .ok (alloc, f') ∧
    (l.selectClasses .aarch64).allocateRegisters .aarch64 = .ok r ∧
    ∃ code ∈ f'.instructions.zip r.instructions, ∃ o ∈ code.1.operands, ∃ reg,
      o.value?.isSome ∧ o.setPhysical reg ∈ code.2.operands ∧
        Target.AArch64.registers.isFloat reg ≠ o.ty.isFloat

theorem displaces_of_code {source : Ir.Function} (o : Operand) (reg : RegId)
    (hsource : source.isDeclaration = false)
    (hcode : (do
      let f ← Lowering.lowerFunction .aarch64 source
      let l ← f.legalize .aarch64
      let (_, f') ← (l.selectClasses .aarch64).assignRegisters .aarch64
      let r ← (l.selectClasses .aarch64).allocateRegisters .aarch64
      pure ((f'.instructions.zip r.instructions).any fun code =>
        o ∈ code.1.operands ∧ o.setPhysical reg ∈ code.2.operands)) = .ok true)
    (hid : o.value?.isSome) (hfile : Target.AArch64.registers.isFloat reg ≠ o.ty.isFloat) :
    Displaces source := by
  obtain ⟨f, hf, hcode⟩ := bind_eq_ok.mp hcode
  obtain ⟨l, hl, hcode⟩ := bind_eq_ok.mp hcode
  obtain ⟨⟨alloc, f'⟩, hassign, hcode⟩ := bind_eq_ok.mp hcode
  obtain ⟨r, hr, hcode⟩ := bind_eq_ok.mp hcode
  obtain ⟨code, hmem, hnames⟩ := List.any_eq_true.mp (pure_eq_ok.mp hcode)
  obtain ⟨ho, hreg⟩ := of_decide_eq_true hnames
  exact ⟨f, l, alloc, f', r, producesFrom_singleton hsource hf, hl, hassign, hr, code, hmem, o, ho,
    reg, hid, hreg, hfile⟩

/-- **Registers in the other file**: a value that is loaded back as another type than it was stored,
the source of a cast that stands before its definition, and a temporary of two kinds, in functions
whose operations are homogeneous. -/
theorem displaced_registers :
    (∀ source ∈ [rereading, castAhead, restating],
      source.instructions.all (·.isHomogeneous) ∧ Displaces source) ∧
    (∃ floats, rereading.KeepsKinds floats) ∧ (∃ floats, castAhead.KeepsKinds floats) := by
  refine ⟨?_, ⟨_, keepsKinds_rereading⟩, ⟨_, keepsKinds_castAhead⟩⟩
  let displaced := fun id => (⟨.virtualReg id, .integer 64, some Target.AArch64.fpr64⟩ : Operand)
  have hrereading : Displaces rereading := displaces_of_code (displaced 2) 95 rfl (by decide +kernel)
    rfl (by decide +kernel)
  have hcastAhead : Displaces castAhead := displaces_of_code (displaced 1) 95 rfl (by decide +kernel)
    rfl (by decide +kernel)
  have hrestating : Displaces restating := displaces_of_code (displaced 1) 94 rfl (by decide +kernel)
    rfl (by decide +kernel)
  simp only [List.forall_mem_cons, List.not_mem_nil, false_implies, implies_true, and_true]
  exact ⟨⟨by decide, hrereading⟩, ⟨by decide, hcastAhead⟩, ⟨by decide, hrestating⟩⟩

end Machine.Function

end Retarget
