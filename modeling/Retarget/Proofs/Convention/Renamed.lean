import Retarget.Proofs.Convention.Passing
import Retarget.Proofs.Execution.Redundancy
import Retarget.Proofs.Execution.Thinning

/-!
# Renamed arguments

The optimizer also renames what is moved into argument registers.  A register that is renamed to a
parameter is then read where the parameter is, behind moves that may have overwritten it, and the
call gets something else (`reloaded_overwritten`).  So an optimized function reads a parameter on the
way to a call exactly when such a register is moved, and where none is, allocation leaves in every
argument register what was moved there (`staged_optimized_iff`).
-/

namespace Retarget

namespace Machine

variable {f g : Function} {rs : Renames} {i : Instruction} {o s : Operand} {ids : List RegId}

/-! ## Windows of renamed code -/

@[simp] theorem Renames.isPhysical_applyOperand (rs : Renames) (o : Operand) :
    (rs.applyOperand o).isPhysical = o.isPhysical := by
  obtain ⟨kind, ty, regClass⟩ := o
  cases kind with
  | virtualReg r =>
    rw [applyOperand]
    dsimp only
    cases rs.resolve (.virtualReg r) <;> rfl
  | _ => rfl

theorem Instruction.writesPhysical_apply (rs : Renames) (i : Instruction) :
    (rs.apply i).writesPhysical = i.writesPhysical := by
  rw [writesPhysical, writesPhysical, def?_apply, Option.any_map]
  simp

/-- A definition of a virtual register neither ends a window nor starts one. -/
theorem Instruction.straight_of_virtualDef? (h : i.virtualDef?.isSome) :
    i.isCall = false ∧ i.isReturn = false ∧ i.writesPhysical = false := by
  obtain ⟨r, hr⟩ := Option.isSome_iff_exists.mp h
  obtain ⟨d, hd, hkind⟩ := virtualDef?_eq_some.mp hr
  have hdef : i.hasDef := by
    rw [def?] at hd
    split at hd
    · assumption
    · cases hd
  simp only [hasDef, isEffect, Bool.and_eq_true, Bool.not_eq_true', Bool.or_eq_false_iff] at hdef
  refine ⟨hdef.2.2, hdef.2.1.1.2, ?_⟩
  rw [writesPhysical, hd, Option.any_some, Operand.isPhysical, hkind]

theorem Thins.window {is js : List Instruction} (h : Thins rs.apply is js) :
    Thins rs.apply (window is) (window js) := by
  have hends : ∀ i, (!((rs.apply i).isCall || (rs.apply i).isReturn)) =
      !(i.isCall || i.isReturn) := fun _ => rfl
  have hstarts : ∀ i, (!(rs.apply i).writesPhysical) = !i.writesPhysical := fun i => by
    rw [i.writesPhysical_apply]
  refine (h.reverse.takeWhile hends fun i hi => ?_).reverse.dropWhile hstarts fun i hi => ?_
  · simp [Instruction.straight_of_virtualDef? hi]
  · simp [Instruction.straight_of_virtualDef? hi]

theorem exists_eq_append_window (before : List Instruction) :
    ∃ front, before = front ++ window before := by
  obtain ⟨front, hfront⟩ := (List.dropWhile_suffix fun i : Instruction => !i.writesPhysical).trans
    (List.rtakeWhile_suffix (fun i : Instruction => !(i.isCall || i.isReturn)) before)
  exact ⟨front, hfront.symm⟩

/-! ## Parameters in renamed code -/

/-- The operand reads a register that is renamed to a parameter. -/
def Renames.FindsParameter (rs : Renames) (o : Operand) : Prop :=
  ∃ r p, o.unallocated? = some r ∧ rs.resolve (.virtualReg r) = .parameter p

theorem Renames.Proper.reads_applyOperand_iff (h : rs.Proper ids) (ho : o.Proper ids)
    (hnot : ¬(o.isParameter ∨ ∃ base offset, o.kind = .memory base offset ∧ base ∈ ids)) :
    ((rs.applyOperand o).isParameter ∨ ∃ base offset,
      (rs.applyOperand o).kind = .memory base offset ∧ base ∈ ids) ↔ rs.FindsParameter o := by
  obtain ⟨kind, ty, regClass⟩ := o
  cases kind with
  | virtualReg r =>
    cases hr : rs.resolve (.virtualReg r) with
    | virtualReg id =>
      simp [Renames.applyOperand, Renames.FindsParameter, Operand.withKind, Operand.isParameter,
        Operand.unallocated?, Source.kind, hr]
    | parameter id =>
      simp [Renames.applyOperand, Renames.FindsParameter, Operand.withKind, Operand.isParameter,
        Operand.unallocated?, Source.kind, hr]
  | memory base offset =>
    have hbase : (Source.virtualReg base).Proper ids :=
      fun hmem => hnot (.inr ⟨base, offset, rfl, hmem⟩)
    have hresolve := h.resolve hbase
    cases hr : rs.resolve (.virtualReg base) with
    | virtualReg id =>
      rw [hr] at hresolve
      have hid : id ∉ ids := hresolve
      simp [Renames.applyOperand, Renames.FindsParameter, Operand.setReg, Operand.withKind,
        Operand.isParameter, Operand.unallocated?, Source.id, hr, hid]
    | parameter id =>
      rw [hr] at hresolve
      have hid : id ∈ ids := hresolve
      simp [Renames.applyOperand, Renames.FindsParameter, Operand.setReg, Operand.withKind,
        Operand.isParameter, Operand.unallocated?, Source.id, hr, hid]
  | parameter id => exact absurd (.inl rfl) hnot
  | _ =>
    simp [Renames.applyOperand, Renames.FindsParameter, Operand.isParameter, Operand.unallocated?]

theorem Instruction.readsParameter_apply_iff (h : rs.Proper ids) (hi : i.Proper ids)
    (hnot : ¬i.ReadsParameter ids) :
    (rs.apply i).ReadsParameter ids ↔ ∃ o ∈ i.uses, rs.FindsParameter o := by
  have huses : ∀ o ∈ i.uses, (((rs.applyOperand o).isParameter ∨ ∃ base offset,
      (rs.applyOperand o).kind = .memory base offset ∧ base ∈ ids) ↔ rs.FindsParameter o) :=
    fun o ho => h.reads_applyOperand_iff (hi o (mem_operands_of_mem_uses ho)) fun hreads =>
      hnot ⟨o, ho, hreads⟩
  rw [ReadsParameter, uses_apply]
  constructor
  · rintro ⟨_, ho', hreads⟩
    obtain ⟨o, ho, rfl⟩ := List.mem_map.mp ho'
    exact ⟨o, ho, (huses o ho).mp hreads⟩
  · rintro ⟨o, ho, hfinds⟩
    exact ⟨_, List.mem_map_of_mem ho, (huses o ho).mpr hfinds⟩

/-! ## Renamed moves -/

def Datum.rename (rs : Renames) : Datum → Datum
  | .register id => .register (rs.resolve (.virtualReg id)).id
  | x => x

def Origin.rename (rs : Renames) : Origin → Origin
  | .datum x => .datum (x.rename rs)
  | .bytes x offset => .bytes (x.rename rs) offset

def Fill.rename (rs : Renames) (fill : Fill) : Fill := { fill with origin := fill.origin.rename rs }

theorem Operand.datum?_applyOperand {x : Datum} (hs : s.isParameter = false)
    (h : s.datum? = some x) : (rs.applyOperand s).datum? = some (x.rename rs) := by
  obtain ⟨kind, ty, regClass⟩ := s
  cases kind with
  | virtualReg r =>
    cases h
    rw [Renames.applyOperand, Datum.rename]
    dsimp only
    cases rs.resolve (.virtualReg r) <;> rfl
  | parameter id => cases hs
  | immediate value =>
    cases h
    rfl
  | _ => cases h

theorem Operand.bytes?_applyOperand {origin : Origin} (h : s.bytes? = some origin) :
    (rs.applyOperand s).bytes? = some (origin.rename rs) := by
  obtain ⟨kind, ty, regClass⟩ := s
  cases kind with
  | memory base offset | stack slot offset =>
    cases h
    rfl
  | _ => cases h

theorem GenericOp.Fetches.rename {op : GenericOp} {origin : Origin} (h : op.Fetches s origin)
    (hs : s.isParameter = false) : op.Fetches (rs.applyOperand s) (origin.rename rs) := by
  cases h with
  | mov hx => exact .mov (Operand.datum?_applyOperand hs hx)
  | movf hx => exact .movf (Operand.datum?_applyOperand hs hx)
  | load ho => exact .load (Operand.bytes?_applyOperand ho)
  | stackAddress hslot =>
    refine .stackAddress ?_
    rw [Renames.applyOperand, hslot]
    exact hslot
  | globalAddress hname =>
    refine .globalAddress ?_
    rw [Renames.applyOperand, hname]
    exact hname

theorem Instruction.mem_uses {d : Operand} (h : i.operands = [d, s]) : s ∈ i.uses := by
  rw [uses, h]
  split <;> simp

theorem Instruction.Fills.rename {fill : Fill} {reg : RegId} (h : i.Fills fill)
    (hdest : fill.dest = .physicalReg reg) (hnot : ¬i.ReadsParameter ids) :
    (rs.apply i).Fills (fill.rename rs) := by
  obtain ⟨hop, hoperands, hd, hs⟩ := h
  rename_i op d s origin
  have hsame : rs.applyOperand d = d := by rw [Renames.applyOperand, show d.kind = _ from hdest]
  have hparameter : s.isParameter = false := by
    rw [← Bool.not_eq_true]
    exact fun hs => hnot ⟨s, mem_uses hoperands, .inl hs⟩
  refine .intro (d := d) (s := rs.applyOperand s) hop ?_ hd (hs.rename hparameter)
  rw [Renames.apply, Instruction.withOperands, hoperands, List.map_cons, List.map_singleton, hsame]

theorem Instruction.Fills.not_mem {fill : Fill} {id : RegId} (h : i.Fills fill)
    (hi : i.Proper ids) (hnot : ¬i.ReadsParameter ids) (hid : fill.origin.register? = some id) :
    id ∉ ids := by
  obtain ⟨hop, hoperands, hd, hs⟩ := h
  rename_i op d s origin
  have huses := mem_uses hoperands
  have hmention : s.unallocated? = some id := hs.register?_eq hid
  obtain ⟨kind, ty, regClass⟩ := s
  cases kind with
  | virtualReg r =>
    cases hmention
    exact (hi _ (mem_operands_of_mem_uses huses)).virtualReg id rfl
  | parameter r => exact absurd ⟨_, huses, .inl rfl⟩ hnot
  | memory base offset =>
    cases hmention
    exact fun hmem => hnot ⟨_, huses, .inr ⟨id, offset, rfl, hmem⟩⟩
  | _ => cases hmention

/-! ## Staged code -/

theorem Instruction.def?_of_isCall (h : i.isCall) : i.def? = none := by
  rw [def?, hasDef, isEffect]
  simp [h]

theorem Instruction.virtualDef?_of_writesPhysical (h : i.writesPhysical) : i.virtualDef? = none := by
  rw [← Option.not_isSome_iff_eq_none]
  intro hdef
  rw [(straight_of_virtualDef? hdef).2.2] at h
  cases h

namespace Function

/-- From the first write of an argument register for a call on, the function reads no parameter until
the call. -/
def Staged (f : Function) : Prop :=
  ∀ block ∈ f.blocks, ∀ before call behind, block.instructions = before ++ call :: behind →
    call.isCall → ∀ i ∈ window before, ¬i.ReadsParameter f.paramIds

/-- For some call, a register that is renamed to a parameter is moved into an argument register. -/
def MovesReload (f : Function) : Prop :=
  ∃ block ∈ f.blocks, ∃ before call behind, block.instructions = before ++ call :: behind ∧
    call.isCall ∧ ∃ i ∈ window before, ∃ o ∈ i.uses, f.renames.FindsParameter o

/-- In every run, an operand reads what it reads once it is renamed. -/
def ReadsAlike (f : Function) : Prop :=
  f.SingleAssignment → ∀ M : Interpretation, M.Layout f.frame → ∀ s t : State M,
    s.point = (0, 0) → f.Reaches s t → ∀ i, f.instruction? t.block t.index = some i →
      ∀ o ∈ i.uses, ∀ v, o.eval f.frame t = some v →
        (f.renames.applyOperand o).eval f.frame t = some v

theorem Tracks.start {M : Interpretation} {s : State M} (hs : s.point = (0, 0)) : f.Tracks s := by
  refine ⟨?_, fun entry _ p _ hdom => ?_, ?_⟩
  · rw [hs]
    exact .entry
  · rw [hs] at hdom
    exact absurd .entry hdom
  · rw [hs, knownAt_zero]
    exact .empty f s

theorem Tracks.reaches {M : Interpretation} {s t : State M} (hf : f.SingleAssignment)
    (hM : M.Layout f.frame) (hs : f.Tracks s) (h : f.Reaches s t) : f.Tracks t := by
  induction h with
  | refl => exact hs
  | step _ hstep ih => exact ih.step hf hM hstep

theorem readsAlike (f : Function) : f.ReadsAlike := by
  intro hf M hM s t hs hreaches i hi o ho v hv
  have htracks := (Tracks.start hs).reaches hf hM hreaches
  rw [renames_eq]
  exact Renames.eval_applyOperand hf htracks.renames (fun _ h => h) (hf.ready hi ho) hv

theorem paramIds_optimized (h : f.optimized = .ok g) : g.paramIds = f.paramIds := by
  have hsweep : ∀ f : Function, f.dropDead.params = f.params := by
    intro f
    induction f using Function.dropDead.induct with
    | case1 f hlt ih => rw [dropDead, if_pos hlt, ih, sweep]
    | case2 f hge => rw [dropDead, if_neg hge]
  obtain ⟨-, rfl⟩ := optimized_eq_ok.mp h
  rw [paramIds, optimize, hsweep]
  rfl

end Function

end Machine

namespace Lowering

open Machine

variable {f : Ir.Function} {g h : Machine.Function} {k : Nat} {block : Machine.Block}
  {before behind : List Instruction} {call i : Instruction} {a : Arch}

/-! ## Calls of optimized functions -/

/-- The code `code` that ends `placed`, in front of the call `last`, is the window `window before` of
that call in block `k` of `g`, renamed, and placed over the registers `assigned`.  In the optimized
function `h` it stands behind `first`. -/
structure IsRenamedWindow (a : Arch) (g h h' : Machine.Function) (assigned : List (RegId × RegId))
    (k : Nat) (before first code placed : List Instruction) (last : Instruction)
    (moved : List Fill) : Prop where
  source : before.countP (·.isCall) = placed.countP (·.isCall)
  optimized : first.countP (·.isCall) = placed.countP (·.isCall)
  call : ∃ call, call.isCall ∧
    (∃ block behind, g.blocks[k]? = some block ∧
      block.instructions = before ++ call :: behind) ∧
    (∃ block behind, h.blocks[k]? = some block ∧ block.instructions =
      first ++ (window before).map g.renames.apply ++ g.renames.apply call :: behind) ∧
    ∃ i, (g.renames.apply call).Recast i ∧
      Function.placeInstruction a.target h' assigned i = .ok last
  fills : List.Forall₂ Instruction.Fills (window before) moved
  last : code <:+ placed
  placed_eq : List.Forall₂ (fun i j => ∃ i', (g.renames.apply i).Recast i' ∧
    Function.placeInstruction a.target h' assigned i' = .ok j) (window before) code

/-- Every call of an allocation of the optimized function `h` stands behind the moves that lowering
made for it, renamed.  When they have run, every argument register holds what its renamed source was
before them, if that is mentioned further up. -/
def PassesRenamed (a : Arch) (g h : Machine.Function) : Prop :=
  ∀ alloc h' h'', (h.selectClasses a.target).assignRegisters a.target = .ok (alloc, h') →
    (h.selectClasses a.target).allocateRegisters a.target = .ok h'' →
    ∀ k block placed call behind, h''.blocks[k]? = some block →
      block.instructions = placed ++ call :: behind → call.isCall →
      ∃ before first code moved,
        IsRenamedWindow a g h h' alloc.assigned k before first code placed call moved ∧
        ∀ symbols σ, (∃ σ', Cpu.Runs a.target symbols code σ σ') ∧
          ∀ σ', Cpu.Runs a.target symbols code σ σ' → ∀ e ∈ moved,
            (∀ id, (e.origin.rename g.renames).register? = some id →
              Occurs ((h.blocks.take k).flatMap (·.instructions) ++ first) id) →
            σ'.read ((h'.placement a.target alloc.assigned symbols).root e.dest) e.ty.bits =
              (e.origin.rename g.renames).eval (h'.placement a.target alloc.assigned symbols) σ
                e.ty.bits

theorem staged_lowerFunction (hlower : lowerFunction a.target f = .ok g) : g.Staged :=
  fun _ hblock _ _ _ hsplit hcall _ hi =>
    not_readsParameter_of_lowerFunction a hlower hblock hsplit hcall hi

section

variable (hlower : lowerFunction a.target f = .ok g)
include hlower

theorem exists_moved (hblock : g.blocks[k]? = some block)
    (hsplit : block.instructions = before ++ call :: behind) (hcall : call.isCall) :
    ∃ moved : List Fill, List.Forall₂ Instruction.Fills (window before) moved ∧
      (∀ e ∈ moved, ∃ reg, e.dest = .physicalReg reg ∧
        a.target.registers.root reg ≠ a.target.stackRoot) ∧
      moved.Pairwise fun e e' => ∀ P : Placement a.target, P.root e.dest ≠ P.root e'.dest := by
  obtain ⟨x, hx, -⟩ := isSetUp_of_lowerFunction hlower hblock hsplit hcall
  obtain ⟨fetched, groups, -, hplaced, hgroups⟩ := delivers_placeArguments hx.incoming hx.places
  obtain ⟨moved, hmoved⟩ := x.exists_moves hplaced hgroups
  refine ⟨moved, ?_, fun e he => hx.dest_of_moves a hmoved he, hx.pairwise_of_moves a hmoved⟩
  rw [hx.window_eq a rfl, CallSite.moves, List.forall₂_map_left_iff]
  exact hmoved.imp fun p e h => h.1

theorem window_writes (hblock : block ∈ g.blocks)
    (hsplit : block.instructions = before ++ call :: behind) (hcall : call.isCall)
    (hi : i ∈ window before) : i.isCall = false ∧ i.isReturn = false ∧ i.writesPhysical := by
  obtain ⟨k, hk⟩ := List.mem_iff_getElem?.mp hblock
  obtain ⟨x, hx, -⟩ := isSetUp_of_lowerFunction hlower hk hsplit hcall
  rw [hx.window_eq a rfl] at hi
  exact hx.moves_write a rfl hi

theorem window_of_thins {before' : List Instruction} (hblock : block ∈ g.blocks)
    (hsplit : block.instructions = before ++ call :: behind) (hcall : call.isCall)
    (hthins : Thins g.renames.apply before before') :
    window before' = (window before).map g.renames.apply :=
  hthins.window.eq_map fun _ hi =>
    Instruction.virtualDef?_of_writesPhysical (window_writes hlower hblock hsplit hcall hi).2.2

theorem proper_renames : g.renames.Proper g.paramIds := by
  rw [Function.renames_eq]
  exact Function.proper_allRenames (proper_lowerFunction hlower)

variable (hopt : g.optimized = .ok h)
include hopt

/-- Every call of the optimized function is one of the function, behind the renamed moves. -/
theorem exists_call_of_optimized {block' : Machine.Block} {before' behind' : List Instruction}
    {call' : Instruction} (hblock' : h.blocks[k]? = some block')
    (hsplit' : block'.instructions = before' ++ call' :: behind') (hcall' : call'.isCall) :
    ∃ block before call behind, g.blocks[k]? = some block ∧
      block.instructions = before ++ call :: behind ∧ call.isCall ∧
      call' = g.renames.apply call ∧ before'.countP (·.isCall) = before.countP (·.isCall) ∧
      window before' = (window before).map g.renames.apply := by
  obtain ⟨block, hblock, hthins⟩ := Function.thins_optimized (proper_lowerFunction hlower)
    hopt hblock'
  rw [hsplit'] at hthins
  obtain ⟨before, call, behind, hsplit, hbefore, rfl, -⟩ := hthins.exists_split
  exact ⟨block, before, call, behind, hblock, hsplit, hcall', rfl,
    hbefore.countP_eq (fun i => show (g.renames.apply i).isCall = i.isCall from rfl)
      fun _ hdef => (Instruction.straight_of_virtualDef? hdef).1,
    window_of_thins hlower (List.mem_of_getElem? hblock) hsplit hcall' hbefore⟩

/-- Every call stays, behind the renamed moves. -/
theorem exists_call_in_optimized (hblock : g.blocks[k]? = some block)
    (hsplit : block.instructions = before ++ call :: behind) (hcall : call.isCall) :
    ∃ block' before' behind', h.blocks[k]? = some block' ∧
      block'.instructions = before' ++ g.renames.apply call :: behind' ∧
      window before' = (window before).map g.renames.apply := by
  obtain ⟨block', hblock'⟩ : ∃ block', h.blocks[k]? = some block' := by
    have hk := (List.getElem?_eq_some_iff.mp hblock).1
    rw [← Function.length_blocks_optimized hopt] at hk
    exact ⟨_, List.getElem?_eq_getElem hk⟩
  obtain ⟨_, hsame, hthins⟩ := Function.thins_optimized (proper_lowerFunction hlower) hopt hblock'
  cases hblock.symm.trans hsame
  rw [hsplit] at hthins
  have hstays : call.virtualDef? = none := by
    rw [Instruction.virtualDef?, Instruction.def?_of_isCall hcall]
    rfl
  obtain ⟨before', behind', hsplit', hbefore⟩ := hthins.exists_split_of_stays hstays
  exact ⟨block', before', behind', hblock', hsplit',
    window_of_thins hlower (List.mem_of_getElem? hblock) hsplit hcall hbefore⟩

/-- **The optimized function is staged unless a reload is moved.** -/
theorem staged_iff : h.Staged ↔ ¬g.MovesReload := by
  have hreads : ∀ block before call behind, block ∈ g.blocks →
      block.instructions = before ++ call :: behind → call.isCall → ∀ i ∈ window before,
        ((g.renames.apply i).ReadsParameter g.paramIds ↔
          ∃ o ∈ i.uses, g.renames.FindsParameter o) := by
    intro block before call behind hblock hsplit hcall i hi
    obtain ⟨front, hfront⟩ := exists_eq_append_window before
    have hmem : i ∈ g.instructions := by
      refine Function.mem_instructions.mpr ⟨block, hblock, ?_⟩
      rw [hsplit, hfront]
      simp [hi]
    exact Instruction.readsParameter_apply_iff (proper_renames hlower)
      (proper_lowerFunction hlower i hmem)
      (staged_lowerFunction hlower block hblock before call behind hsplit hcall i hi)
  rw [Function.Staged, Function.paramIds_optimized hopt]
  constructor
  · rintro hstaged ⟨block, hblock, before, call, behind, hsplit, hcall, i, hi, hfinds⟩
    obtain ⟨k, hk⟩ := List.mem_iff_getElem?.mp hblock
    obtain ⟨block', before', behind', hblock', hsplit', hwindow⟩ :=
      exists_call_in_optimized hlower hopt hk hsplit hcall
    refine hstaged block' (List.mem_of_getElem? hblock') before' _ behind' hsplit' hcall
      (g.renames.apply i) ?_ ((hreads _ _ _ _ hblock hsplit hcall i hi).mpr hfinds)
    rw [hwindow]
    exact List.mem_map_of_mem hi
  · intro hnot block' hblock' before' call' behind' hsplit' hcall' i' hi' hparameter
    obtain ⟨k, hk'⟩ := List.mem_iff_getElem?.mp hblock'
    obtain ⟨block, before, call, behind, hk, hsplit, hcall, -, -, hwindow⟩ :=
      exists_call_of_optimized hlower hopt hk' hsplit' hcall'
    rw [hwindow] at hi'
    obtain ⟨i, hi, rfl⟩ := List.mem_map.mp hi'
    have hblock := List.mem_of_getElem? hk
    exact hnot ⟨block, hblock, before, call, behind, hsplit, hcall, i, hi,
      (hreads _ _ _ _ hblock hsplit hcall i hi).mp hparameter⟩

theorem return_of_optimized :
    h.All fun i => i.isReturn → i.operands.length ≤ 1 ∧ i.isCall = false := by
  intro i' hi' hret
  obtain ⟨i, hi, rfl⟩ := Function.exists_of_mem_optimized (proper_lowerFunction hlower) hopt hi'
  rw [Renames.apply, Instruction.withOperands, List.length_map]
  exact return_of_lowerFunction hlower i hi hret

theorem proper_optimized : h.All (·.Proper g.paramIds) := by
  have hf := proper_lowerFunction hlower
  intro i' hi' o' ho'
  obtain ⟨i, hi, rfl⟩ := Function.exists_of_mem_optimized hf hopt hi'
  obtain ⟨o, ho, rfl⟩ := List.mem_map.mp ho'
  exact (proper_renames hlower).applyOperand (hf i hi o ho)

/-- Where the optimized function is staged, the renamed window of a call is a set-up. -/
theorem setUp_of_optimized (hstaged : h.Staged) {block' : Machine.Block}
    {before' behind' first : List Instruction} {call' : Instruction}
    (hblock' : h.blocks[k]? = some block')
    (hsplit' : block'.instructions = before' ++ call' :: behind') (hcall' : call'.isCall)
    (hfirst : before' = first ++ window before') (hblock : g.blocks[k]? = some block)
    (hsplit : block.instructions = before ++ call :: behind) (hcall : call.isCall)
    (hwindow : window before' = (window before).map g.renames.apply) :
    ∃ moved, List.Forall₂ Instruction.Fills (window before) moved ∧
      h.SetUp a ((h.blocks.take k).flatMap (·.instructions) ++ first) (window before')
        (call' :: behind' ++ (h.blocks.drop (k + 1)).flatMap (·.instructions)) []
        (moved.map (Fill.rename g.renames)) := by
  have hmem := List.mem_of_getElem? hblock
  have hwrites : ∀ i ∈ window before, i.isCall = false ∧ i.isReturn = false ∧ i.writesPhysical :=
    fun i hi => window_writes hlower hmem hsplit hcall hi
  obtain ⟨moved, hfills, hdests, hroots⟩ := exists_moved hlower hblock hsplit hcall
  have hrenamed : List.Forall₂ Instruction.Fills (window before')
      (moved.map (Fill.rename g.renames)) := by
    have hpairs := (forall₂_imp_mem hfills.flip fun e i hi h => (⟨hi, h⟩ : _ ∧ i.Fills e)).flip
    rw [hwindow, List.forall₂_map_left_iff, List.forall₂_map_right_iff]
    refine forall₂_imp_mem hpairs fun i e he hpair => ?_
    obtain ⟨reg, hreg, -⟩ := hdests e he
    exact hpair.2.rename hreg
      (staged_lowerFunction hlower block hmem before call behind hsplit hcall i hpair.1)
  refine ⟨moved, hfills, ⟨?_, hrenamed, ?_, by simp, by simp, .nil, ?_, ?_, ?_⟩⟩
  · rw [Function.instructions_eq_of_getElem? hblock', hsplit']
    nth_rewrite 1 [hfirst]
    simp
  · rw [hwindow]
    intro i' hi'
    obtain ⟨i, hi, rfl⟩ := List.mem_map.mp hi'
    exact (hwrites i hi).2.1
  · intro e' he'
    obtain ⟨e, he, rfl⟩ := List.mem_map.mp he'
    exact hdests e he
  · exact List.pairwise_map.mpr hroots
  · -- the renamed moves read no parameter, as the function is staged
    intro e' he' id hid
    obtain ⟨es, es', hes⟩ := List.append_of_mem he'
    rw [hes] at hrenamed
    obtain ⟨is, i', js, his, -, hfill, -⟩ := exists_cons_of_forall₂_cons hrenamed
    have hi' : i' ∈ window before' := by simp [his]
    have hmem' : i' ∈ h.instructions :=
      Function.mem_instructions.mpr ⟨block', List.mem_of_getElem? hblock', by
        rw [hsplit', hfirst]
        simp [hi']⟩
    have hproper := proper_optimized hlower hopt i' hmem'
    rw [← Function.paramIds_optimized hopt] at hproper
    exact hfill.not_mem hproper (hstaged block' (List.mem_of_getElem? hblock') before' call' behind'
      hsplit' hcall' i' hi') hid

/-- **Where the optimized function is staged, calls get what the renamed moves name.** -/
theorem passes_optimized (hstaged : h.Staged) : PassesRenamed a g h := by
  intro alloc h' h'' hassign halloc k block'' placed call'' behind'' hblock'' hsplit'' hcall''
  have hret := return_of_optimized hlower hopt
  obtain ⟨y, hy⟩ := Function.exists_callOrigin halloc hassign (fun i hi h => (hret i hi h).2) hblock''
    hsplit'' hcall''
  obtain ⟨block, before, call, behind, hblock, hsplit, hcall, hsame, hcount, hwindow⟩ :=
    exists_call_of_optimized hlower hopt hy.block_eq hy.split hy.isCall
  obtain ⟨first, hfirst⟩ := exists_eq_append_window y.before
  obtain ⟨moved, hfills, hsetUp⟩ := setUp_of_optimized hlower hopt hstaged hy.block_eq hy.split
    hy.isCall hfirst hblock hsplit hcall hwindow
  obtain ⟨earlier, code, later, js, hsetUp', hoccurs, hlast, hcode, hjs⟩ :=
    exists_setUp_of_isAt hy hfirst hsetUp
  have hroots : ∀ id reg, alloc.assigned.lookup id = some reg → a.target.registers.root reg = reg :=
    fun _ _ => Function.root_of_assigned a.regular hassign
  have hreturns := length_returns_selectClasses a.target fun i hi h => (hret i hi h).1
  have hplaced : List.Forall₂ (fun i j => ∃ i', (g.renames.apply i).Recast i' ∧
      Function.placeInstruction a.target h' alloc.assigned i' = .ok j) (window before) js := by
    have hall := forall₂_comp (fun i i' j hi hj => (⟨i', hi, hj⟩ : ∃ i', i.Recast i' ∧
      Function.placeInstruction a.target h' alloc.assigned i' = .ok j)) hcode hjs
    rwa [hwindow, List.forall₂_map_left_iff] at hall
  -- no call is among the moves
  have hmoves : (window y.before).countP (·.isCall) = 0 := by
    rw [hwindow, List.countP_map]
    exact countP_eq_zero_of_forall fun i hi =>
      (window_writes hlower (List.mem_of_getElem? hblock) hsplit hcall hi).1
  have hfront : y.before.countP (·.isCall) = first.countP (·.isCall) := by
    nth_rewrite 1 [hfirst]
    rw [List.countP_append, hmoves, Nat.add_zero]
  refine ⟨before, first, js, moved, ⟨hcount.symm.trans hy.countP_isCall.symm,
    hfront.symm.trans hy.countP_isCall.symm, ⟨call, hcall, ⟨block, behind, hblock, hsplit⟩,
      ⟨y.block, y.behind, hy.block_eq, ?_⟩, hsame ▸ hy.last_eq⟩, hfills, hlast, hplaced⟩,
    fun symbols σ => ⟨exists_runs hroots hsetUp'.fills hjs σ, fun σ' hruns e he hknown => ?_⟩⟩
  · rw [hy.split, hfirst, ← hwindow, hsame]
  · have hmem : e.rename g.renames ∈ moved.map (Fill.rename g.renames) := List.mem_map_of_mem he
    have hread : ∀ fetched : List Fill, Part.ReadFrom ⟨e.ty.bits, e.origin.rename g.renames⟩
        a.target.pointerBits fetched e.ty.bits (e.origin.rename g.renames) := fun _ => .direct rfl
    exact (hsetUp'.delivers hassign hreturns (run_of_runs hroots hsetUp'.fills hjs hruns) hmem
      (hread _)
      fun id hid => .inr ((hoccurs id).mpr (hknown id hid))).2

end

/-- **What the optimizer does to the staging of arguments.**  Lowered code is staged.  It stays so
exactly if no register that is renamed to a parameter is moved into an argument register.  Then every
call gets what it got before: in every run, what is moved is what its renamed operand reads, and once
the optimized function is allocated, that is what arrives. -/
theorem staged_optimized_iff (hlower : lowerFunction a.target f = .ok g)
    (hopt : g.optimized = .ok h) :
    g.Staged ∧ (h.Staged ↔ ¬g.MovesReload) ∧ g.ReadsAlike ∧ (h.Staged → PassesRenamed a g h) :=
  ⟨staged_lowerFunction hlower, staged_iff hlower hopt, g.readsAlike,
    passes_optimized hlower hopt⟩

theorem staged_optimized_swapping : ∃ g h, lowerFunction .aarch64 swapping = .ok g ∧
    g.optimized = .ok h ∧ h.blocks.any (·.instructions.any (·.isCall)) ∧
    (h.Staged ↔ ¬g.MovesReload) := by
  have hcalls : (do
      let g ← lowerFunction .aarch64 swapping
      let h ← g.optimized
      pure (h.blocks.any (·.instructions.any (·.isCall)))) = .ok true := by
    decide +kernel
  obtain ⟨g, hg, hcalls⟩ := bind_eq_ok.mp hcalls
  obtain ⟨h, hh, hcalls⟩ := bind_eq_ok.mp hcalls
  exact ⟨g, h, hg, hh, pure_eq_ok.mp hcalls, (staged_optimized_iff (a := .aarch64) hg hh).2.1⟩

/-! ## A parameter that is reloaded -/

/-- A function that keeps its first parameter in the frame, and passes it behind the second. -/
def reloading : Ir.Function where
  name := "f"
  returnType := .void
  parameters := [⟨"p", .i32, false⟩, ⟨"q", .i32, false⟩]
  blocks := [⟨"entry", [.stackAlloc 0 "x" .i32, .store (.param "p" .i32) (.temp 0 (.ptr .i32)),
    .load 1 (.temp 0 (.ptr .i32)) .i32,
    .call none "g" [.param "q" .i32, .temp 1 .i32] .void none, .ret none]⟩]

/-- What the optimizer makes of it: the second argument is the parameter in the first argument
register. -/
def reloadingCode : List Instruction :=
  let i32 := LowType.integer 32
  [.generic .store [.stack ⟨2⟩ 0 i32, .parameter 0 i32],
    .generic .mov [.virtualReg 4 i32, .parameter 1 i32],
    .generic .mov [.physicalReg 0 i32, .virtualReg 4 i32],
    .generic .mov [.physicalReg 1 i32, .parameter 0 i32],
    .generic .call [.function "g"], .generic .ret []]

/-- The moves in front of the call, over registers. -/
def reloadingMoves : List Instruction :=
  let placed := fun reg => ⟨.physicalReg reg, .integer 32, some Target.AArch64.gpr32⟩
  [.generic .mov [placed 2, placed 1], .generic .mov [.physicalReg 0 (.integer 32), placed 2],
    .generic .mov [.physicalReg 1 (.integer 32), placed 0]]

/-- **A reloaded parameter is overwritten**: the lowered function is staged and the optimized one is
not, and the call gets the second parameter twice. -/
theorem reloaded_overwritten : ∃ g h h', lowerFunction .aarch64 reloading = .ok g ∧ g.Staged ∧
    g.optimized = .ok h ∧ ¬h.Staged ∧
    (h.selectClasses .aarch64).allocateRegisters .aarch64 = .ok h' ∧
    (∃ block store, h'.blocks = [block] ∧ block.instructions =
      store :: reloadingMoves ++ [.generic .call [.function "g"], .generic .ret []]) ∧
    ∀ symbols, ∃ σ σ', Cpu.Runs .aarch64 symbols reloadingMoves σ σ' ∧
      σ'.read (Target.aarch64.registers.root 1) 32 ≠ σ.read (Target.aarch64.registers.root 0) 32 := by
  have hcode : (do
      let g ← lowerFunction .aarch64 reloading
      let h ← g.optimized
      pure (h.blocks.map fun b : Machine.Block => b.instructions)) = .ok [reloadingCode] := by
    decide +kernel
  have hplaced : (do
      let g ← lowerFunction .aarch64 reloading
      let h ← g.optimized
      let h' ← (h.selectClasses .aarch64).allocateRegisters .aarch64
      pure (h'.blocks.map fun b : Machine.Block => b.instructions.tail)) =
        .ok [reloadingMoves ++ [.generic .call [.function "g"], .generic .ret []]] := by
    decide +kernel
  obtain ⟨g, hg, hcode⟩ := bind_eq_ok.mp hcode
  obtain ⟨h, hh, hcode⟩ := bind_eq_ok.mp hcode
  rw [hg, ok_bind, hh, ok_bind] at hplaced
  obtain ⟨h', hh', hplaced⟩ := bind_eq_ok.mp hplaced
  refine ⟨g, h, h', hg, staged_lowerFunction (a := .aarch64) hg, hh, fun hstaged => ?_, hh', ?_,
    fun symbols => ?_⟩
  · obtain ⟨block, rest, hcons, hblock, -⟩ := List.map_eq_cons_iff.mp (pure_eq_ok.mp hcode)
    refine hstaged block (by simp [hcons]) (reloadingCode.take 4) _ _ hblock rfl
      (reloadingCode[3]) (by decide +kernel) ⟨_, List.mem_cons_self, .inl rfl⟩
  · obtain ⟨block, rest, hcons, hblock, hrest⟩ := List.map_eq_cons_iff.mp (pure_eq_ok.mp hplaced)
    rw [List.map_eq_nil_iff.mp hrest] at hcons
    cases hinstructions : block.instructions with
    | nil => simp [hinstructions, reloadingMoves] at hblock
    | cons store is =>
      rw [hinstructions, List.tail_cons] at hblock
      exact ⟨block, store, hcons, by rw [hinstructions, hblock]; rfl⟩
  · -- the first argument overwrites the register of the parameter
    let σ : Cpu Target.aarch64.pointerBits :=
      ⟨fun reg => if reg = Target.aarch64.registers.root 0 then 1 else 0, fun _ => 0⟩
    have hlast : Cpu.Runs .aarch64 symbols [reloadingMoves[2]] (.zeros _) (.zeros _) :=
      Cpu.runs_zeros fun i hi => ⟨_, _, _, _, List.mem_singleton.mp hi, rfl, rfl⟩
    have hfirst : Cpu.Step .aarch64 symbols reloadingMoves[0] σ σ :=
      .write rfl rfl rfl rfl (fun _ _ => rfl) rfl
    have hsecond : Cpu.Step .aarch64 symbols reloadingMoves[1] σ (.zeros _) :=
      .write rfl rfl rfl rfl (fun r hr => (if_neg hr).symm) rfl
    exact ⟨σ, .zeros _, .cons hfirst (.cons hsecond hlast), by decide⟩

end Lowering

end Retarget
