import Retarget.Proofs.Convention.Allocated
import Retarget.Proofs.Convention.Windows

/-!
# Arguments arrive

The code before a call of a lowered function is a set-up (`CallSite.IsSetUp.setUp`), and class
selection and allocation keep it one.  So at the call every argument register holds what the argument
was before the set-up (`arguments_arrive`), but for temporaries that nothing in front of the set-up
mentions: allocation takes them to live from the set-up on, so their registers may be given to what
is fetched (`late_overwritten`).
-/

namespace Retarget

theorem exists_forall₂ {α β : Type} {R : α → β → Prop} {as : List α} (h : ∀ a ∈ as, ∃ b, R a b) :
    ∃ bs, List.Forall₂ R as bs := by
  induction as with
  | nil => exact ⟨[], .nil⟩
  | cons a as ih =>
    obtain ⟨hfirst, hrest⟩ := List.forall_mem_cons.mp h
    obtain ⟨b, hb⟩ := hfirst
    obtain ⟨bs, hbs⟩ := ih hrest
    exact ⟨b :: bs, .cons hb hbs⟩

namespace Machine

theorem Instruction.Fills.unique {i : Instruction} {fill fill' : Fill} (h : i.Fills fill)
    (h' : i.Fills fill') : fill = fill' := by
  obtain ⟨hop, hoperands, -, hs⟩ := h
  obtain ⟨hop', hoperands', -, hs'⟩ := h'
  cases hop.symm.trans hop'
  cases hoperands.symm.trans hoperands'
  congr 1
  cases hs <;> cases hs' <;> simp_all

/-- A processor with zeros only. -/
def Cpu.zeros (p : Nat) : Cpu p := ⟨fun _ => 0, fun _ => 0⟩

/-- From a state with zeros only, moves between registers lead to that state. -/
theorem Cpu.runs_zeros {t : Target} {symbols : String → BitVec t.pointerBits}
    {code : List Instruction}
    (hcode : ∀ i ∈ code, ∃ d s x y, i = .generic .mov [d, s] ∧ d.kind = .physicalReg x ∧
      s.kind = .physicalReg y) :
    Runs t symbols code (.zeros _) (.zeros _) := by
  induction code with
  | nil => exact .nil _
  | cons i code ih =>
    obtain ⟨⟨d, s, x, y, rfl, hd, hs⟩, hrest⟩ := List.forall_mem_cons.mp hcode
    obtain ⟨kind, ty, regClass⟩ := s
    cases hs
    exact .cons (.write rfl hd rfl rfl (fun _ _ => rfl) rfl) (ih hrest)

namespace Function

variable {a : Arch} {f g : Function} {earlier code later earlier' code' later' : List Instruction}
  {fetched moved : List Fill}

theorem SetUp.recast (hs : f.SetUp a earlier code later fetched moved)
    (hparams : g.paramIds = f.paramIds) (hsplit : g.instructions = earlier' ++ code' ++ later')
    (hearlier : List.Forall₂ Instruction.Recast earlier earlier')
    (hcode : List.Forall₂ Instruction.Recast code code') :
    g.SetUp a earlier' code' later' fetched moved where
  split := hsplit
  fills := forall₂_comp (R := flip Instruction.Recast) (S := Instruction.Fills)
    (fun _ _ _ hrecast hfills => Instruction.Recast.fills hrecast hfills) hcode.flip hs.fills
  quiet := not_isReturn_of_recast hcode hs.quiet
  fresh e he := by
    obtain ⟨id, hdest, hparam, hnew⟩ := hs.fresh e he
    exact ⟨id, hdest, hparams ▸ hparam, (occurs_recast hearlier).not.mpr hnew⟩
  incoming e he id hid := hparams ▸ hs.incoming e he id hid
  apart := hs.apart
  dests := hs.dests
  roots := hs.roots
  spares e he id hid := hparams ▸ hs.spares e he id hid

end Function

end Machine

namespace Lowering

open Machine

variable {f : Ir.Function} {g : Machine.Function} {x : CallSite} {k : Nat} {block : Machine.Block}
  {before behind : List Instruction} {call : Instruction}

/-! ## Set-ups of lowered functions -/

def CallSite.earlier (x : CallSite) : List Instruction :=
  x.reached.function.blocks.flatMap (·.instructions) ++ x.reached.code.toList

/-- The code that fetches the arguments of a call and moves them. -/
def CallSite.setUpCode (x : CallSite) (c : Scope) : List Instruction :=
  x.staged.code.toList.drop x.reached.code.toList.length ++ x.moves c

/-- What is moved into argument registers, as fills. -/
def CallSite.Moves (x : CallSite) (c : Scope) (moved : List Fill) : Prop :=
  List.Forall₂ (fun p e => (c.moveOf x.staged p).Fills e ∧ e.dest = p.dest.kind ∧ e.ty = p.dest.ty)
    x.placed moved

theorem CallSite.exists_moves {c : Scope} {fetched : List Fill} {groups : List (List Placed)}
    (hplaced : x.placed = groups.flatten)
    (hgroups : List.Forall₂ (fun arg group => c.Delivers x.staged fetched
      (x.returnBuffer.map (·.toNat) == some arg.2) arg.1 group) x.args.zipIdx groups) :
    ∃ moved, x.Moves c moved := by
  refine exists_forall₂ fun p hp => ?_
  obtain ⟨part, hpart⟩ := exists_carries_of_mem hgroups (hplaced ▸ hp)
  obtain ⟨o, hfills, -⟩ := hpart.reads
  exact ⟨_, hfills, rfl, rfl⟩

namespace CallSite.IsSetUp

theorem not_occurs_earlier {c : Scope} {blocks : List Machine.Block}
    (hx : x.IsSetUp c f blocks before call) {id : RegId} (hid : x.reached.next ≤ id) :
    ¬Occurs x.earlier id := by
  have htracked := hx.reaches.tracked
  rintro ⟨i, hi, hmention⟩
  obtain ⟨o, ho, hid'⟩ := List.mem_filterMap.mp hmention
  have hplain : i.Plain c.target x.reached.next := by
    rcases List.mem_append.mp hi with hi | hi
    · exact htracked.blocks i hi
    · exact htracked.code i hi
  exact absurd ((hplain.operands o ho).id_lt id hid') (Nat.not_lt.mpr hid)

section Arch

variable (a : Arch) (hx : x.IsSetUp ⟨a.target, f.name⟩ f (g.blocks.take k) before call)
include hx

theorem dest_of_moves {moved : List Fill} (hmoved : x.Moves ⟨a.target, f.name⟩ moved) {e : Fill}
    (he : e ∈ moved) : ∃ reg, e.dest = .physicalReg reg ∧
      a.target.registers.root reg ≠ a.target.stackRoot := by
  obtain ⟨first, last, rfl⟩ := List.append_of_mem he
  obtain ⟨ps, p, qs, hsplit, -, ⟨-, hdest, -⟩, -⟩ := exists_cons_of_forall₂_cons hmoved
  obtain ⟨reg, hreg, hmem⟩ := hx.exists_dest a rfl (p := p) (by simp [hsplit])
  refine ⟨reg, hdest.trans hreg, ?_⟩
  rw [a.reserved.root_stack]
  refine a.reserved.ne_of_mem_homes ?_
  simp [Target.homes, hmem]

theorem pairwise_of_moves {moved : List Fill} (hmoved : x.Moves ⟨a.target, f.name⟩ moved) :
    moved.Pairwise fun e e' => ∀ P : Placement a.target, P.root e.dest ≠ P.root e'.dest := by
  obtain ⟨roots, hroots, hnodup, -⟩ := hx.exists_roots a rfl
  have hsame : List.Forall₂ (fun (e : Fill) root => ∀ P : Placement a.target,
      P.root e.dest = root) moved roots := by
    have hps : List.Forall₂ (fun p root => Placed.root? a.target p = some root) x.placed roots := by
      rw [← List.forall₂_map_right_iff (f := some), ← hroots, List.forall₂_map_right_iff]
      exact List.forall₂_same.mpr fun _ _ => rfl
    refine forall₂_comp (fun e p root hmove hroot P => ?_) hmoved.flip hps
    obtain ⟨reg, hreg, hsame⟩ := Placed.exists_physicalReg hroot
    have hdest : e.dest = .physicalReg reg := hmove.2.1.trans hreg
    rw [hdest, Placement.root, hsame]
  clear hroots hmoved hx
  induction hsame with
  | nil => exact .nil
  | cons hfirst hrest ih =>
    obtain ⟨hnot, hnodup⟩ := List.nodup_cons.mp hnodup
    refine List.pairwise_cons.mpr ⟨fun e he P heq => hnot ?_, ih hnodup⟩
    obtain ⟨first, last, rfl⟩ := List.append_of_mem he
    obtain ⟨_, root, _, hsplit, -, hroot, -⟩ := exists_cons_of_forall₂_cons hrest.flip
    rw [hsplit, ← hfirst P, heq, hroot P]
    simp

/-- **The code before a call fetches its arguments and then moves them**, as a set-up does. -/
theorem setUp (hparams : x.reached.function.params = g.params) (hblock : g.blocks[k]? = some block)
    (hsplit : block.instructions = before ++ call :: behind) :
    ∃ fetched moved groups, before = x.reached.code.toList ++ x.setUpCode ⟨a.target, f.name⟩ ∧
      g.SetUp a x.earlier (x.setUpCode ⟨a.target, f.name⟩)
        (call :: behind ++ (g.blocks.drop (k + 1)).flatMap (·.instructions)) fetched moved ∧
      x.Moves ⟨a.target, f.name⟩ moved ∧ x.placed = groups.flatten ∧
      List.Forall₂ (fun arg group => Scope.Delivers ⟨a.target, f.name⟩ x.staged fetched
        (x.returnBuffer.map (·.toNat) == some arg.2) arg.1 group) x.args.zipIdx groups := by
  obtain ⟨fetched, groups, hfetches, hplaced, hgroups⟩ :=
    delivers_placeArguments hx.incoming hx.places
  obtain ⟨moved, hmoved⟩ := x.exists_moves hplaced hgroups
  obtain ⟨code, hcode, hfills⟩ := hfetches.code
  obtain ⟨code', hcode', hinner⟩ := hx.exists_fetchCode
  cases List.append_cancel_left (hcode.symm.trans hcode')
  have hids : x.reached.function.paramIds = g.paramIds := by
    rw [Function.paramIds, hparams, Function.paramIds]
  have hsetUp : x.setUpCode ⟨a.target, f.name⟩ = code ++ x.moves ⟨a.target, f.name⟩ := by
    rw [CallSite.setUpCode, hcode', List.drop_left]
  have hbefore : before = x.reached.code.toList ++ x.setUpCode ⟨a.target, f.name⟩ := by
    rw [hx.before_eq, hcode', hsetUp, List.append_assoc]
  refine ⟨fetched, moved, groups, hbefore, ⟨?_, ?_, ?_, ?_, ?_, hfetches.apart, ?_, ?_, ?_⟩,
    hmoved, hplaced, hgroups⟩
  · rw [Function.instructions_eq_of_getElem? hblock, hsplit, hbefore, CallSite.earlier,
      hx.blocks_eq]
    simp
  · rw [hsetUp]
    refine List.rel_append hfills ?_
    rw [CallSite.moves, List.forall₂_map_left_iff]
    exact hmoved.imp fun p e h => h.1
  · rw [hsetUp]
    refine List.forall_mem_append.mpr ⟨fun i hi => (hinner i hi).not_return, fun i hi => ?_⟩
    exact (hx.moves_write a rfl hi).2.1
  · intro e he
    obtain ⟨id, hdest, hle, -⟩ := hfetches.fresh e he
    exact ⟨id, hdest, hids ▸ hfetches.not_mem_paramIds hx.incoming he hdest,
      hx.not_occurs_earlier hle⟩
  · exact fun e he id hid => hids ▸ hfetches.incoming e he id hid
  · exact fun e he => hx.dest_of_moves a hmoved he
  · exact hx.pairwise_of_moves a hmoved
  · intro e he id hid
    obtain ⟨first, last, rfl⟩ := List.append_of_mem he
    obtain ⟨ps, p, qs, hps, -, ⟨hfill, -⟩, -⟩ := exists_cons_of_forall₂_cons hmoved
    obtain ⟨o, ho, hmention⟩ := List.mem_filterMap.mp (hfill.mem_ids (.inr hid))
    have hmem : Scope.moveOf ⟨a.target, f.name⟩ x.staged p ∈ x.moves ⟨a.target, f.name⟩ :=
      List.mem_map_of_mem (by simp [hps])
    rw [← hids]
    exact hfetches.paramIds ▸ (hx.moves_spare hmem o ho).not_incoming id hmention

end Arch

end CallSite.IsSetUp

/-! ## Calls of allocated functions -/

/-- The argument register holds what its part of an argument was before. -/
structure Placed.Receives {t : Target} (p : Placed) (P : Placement t) (σ σ' : Cpu t.pointerBits)
    (part : Part) : Prop where
  fits : part.width ≤ p.dest.size
  holds : σ'.read (P.root p.dest.kind) part.width = part.origin.eval P σ part.width

/-- Every argument is in the registers that the call has for it, all of it if it can be passed, as far
as what it reads was known. -/
def CallSite.Passes (x : CallSite) (c : Scope) (P : Placement c.target) (known : RegId → Prop)
    (σ σ' : Cpu c.target.pointerBits) : Prop :=
  ∃ groups, x.placed = groups.flatten ∧ List.Forall₂ (fun arg group => ∃ whole parts,
    c.HasParts x.staged arg.1 (x.returnBuffer.map (·.toNat) == some arg.2) whole ∧
    parts <+: whole ∧ (x.staged.CanPass c arg.1 → parts = whole) ∧
    List.Forall₂ (fun p part => (∀ id, part.origin.register? = some id → known id) →
      p.Receives P σ σ' part) group parts) x.args.zipIdx groups

theorem return_of_lowerFunction {t : Target} (h : lowerFunction t f = .ok g) :
    g.All fun i => i.isReturn → i.operands.length ≤ 1 ∧ i.isCall = false := by
  intro i hi hret
  obtain ⟨op, hcode, hflags, -⟩ := (plain_lowerFunction h i hi).form
  have hop : op = .ret := by
    rw [Instruction.isReturn, hflags] at hret
    cases op <;> first | rfl | cases hret
  subst hop
  exact ⟨((yields_lowerFunction t f).of_eq_ok h i hi).length_ret_le hcode,
    by rw [Instruction.isCall, hflags]; rfl⟩

/-- A set-up over registers passes every argument. -/
theorem passes_of_setUp {a : Arch} {h h' : Machine.Function} {alloc : Allocation}
    {earlier code later : List Instruction} {fetched moved : List Fill}
    {groups : List (List Placed)} {symbols : String → BitVec a.target.pointerBits}
    {σ σ' : Cpu a.target.pointerBits}
    (hsetUp : h.SetUp a earlier code later fetched moved)
    (hassign : h.assignRegisters a.target = .ok (alloc, h'))
    (hreturns : ∀ i ∈ h.instructions, i.isReturn → i.operands.length ≤ 1)
    (hmoves : x.Moves ⟨a.target, f.name⟩ moved) (hplaced : x.placed = groups.flatten)
    (hgroups : List.Forall₂ (fun arg group => Scope.Delivers ⟨a.target, f.name⟩ x.staged fetched
        (x.returnBuffer.map (·.toNat) == some arg.2) arg.1 group) x.args.zipIdx groups)
    (hrun : Run (h'.placement a.target alloc.assigned symbols) (fetched ++ moved) σ σ') :
    x.Passes ⟨a.target, f.name⟩ (h'.placement a.target alloc.assigned symbols)
      (fun id => id ∈ h.paramIds ∨ Occurs earlier id) σ σ' := by
  refine ⟨groups, hplaced, forall₂_imp_mem hgroups fun arg group hgroup hdelivers => ?_⟩
  obtain ⟨whole, parts, hparts, hprefix, hwhole, hcarries⟩ := hdelivers
  refine ⟨whole, parts, hparts, hprefix, hwhole, ?_⟩
  refine (forall₂_imp_mem hcarries.flip fun part p hp hpart hknown => ?_).flip
  -- the move of the part is one of those that the set-up makes
  have hmem : p ∈ x.placed := hplaced ▸ List.mem_flatten.mpr ⟨group, hgroup, hp⟩
  obtain ⟨first, last, hsplit⟩ := List.append_of_mem hmem
  have hmoves' := hmoves.flip
  rw [hsplit] at hmoves'
  obtain ⟨before, e, after, rfl, -, ⟨hfills, -, -⟩, -⟩ := exists_cons_of_forall₂_cons hmoves'
  obtain ⟨o, hfills', hread⟩ := hpart.reads
  cases hfills.unique hfills'
  have he : (⟨p.dest.kind, p.dest.ty, o⟩ : Fill) ∈ before ++ ⟨p.dest.kind, p.dest.ty, o⟩ :: after :=
    List.mem_append_right _ List.mem_cons_self
  obtain ⟨hfits, hholds⟩ := hsetUp.delivers hassign hreturns hrun he hread hknown
  exact ⟨hfits, hholds⟩

/-- In block `k` of an allocated function the call `call'` stands behind `placed`, which ends with
`code`: the set-up that lowering made for the very call, once it has been through class selection and
allocation. -/
structure CallSite.IsPlaced (x : CallSite) (a : Arch) (f : Ir.Function) (g f' : Machine.Function)
    (assigned : List (RegId × RegId)) (k : Nat) (placed : List Instruction) (call' : Instruction)
    (code : List Instruction) : Prop where
  source : x.IsCallAt f k (placed.countP (·.isCall))
  callee : call'.generic? = some .call ∧ call'.operands.map (·.kind) = [.function x.callee]
  lowered : ∃ block before call behind, g.blocks[k]? = some block ∧
    block.instructions = before ++ call :: behind ∧
    before.countP (·.isCall) = placed.countP (·.isCall) ∧
    x.IsSetUp ⟨a.target, f.name⟩ f (g.blocks.take k) before call
  last : code <:+ placed
  placed_eq : List.Forall₂ (fun i j => ∃ i', i.Recast i' ∧
    Function.placeInstruction a.target f' assigned i' = .ok j) (x.setUpCode ⟨a.target, f.name⟩) code

theorem length_returns_selectClasses (t : Target) {h : Machine.Function}
    (hret : ∀ i ∈ h.instructions, i.isReturn → i.operands.length ≤ 1) :
    ∀ i ∈ (h.selectClasses t).instructions, i.isReturn → i.operands.length ≤ 1 := by
  intro j hj hjret
  obtain ⟨before, after, hall⟩ := List.append_of_mem hj
  have hrecast := Function.forall₂_instructions (Function.recast_selectClasses t h)
  rw [← Function.instructions, ← Function.instructions, hall] at hrecast
  obtain ⟨_, i, _, hinstructions, -, hi, -⟩ := exists_cons_of_forall₂_cons hrecast
  rw [← hi.operands.length_eq]
  refine hret i (by simp [hinstructions]) ?_
  rw [← hi.isReturn_eq]
  exact hjret

/-- A set-up in front of a call stays one through class selection, and is placed as it is. -/
theorem exists_setUp_of_isAt {a : Arch} {h f' : Machine.Function} {assigned : List (RegId × RegId)}
    {y : Function.CallOrigin} {placed first code later : List Instruction} {call' : Instruction}
    {fetched moved : List Fill} (hy : y.IsAt a.target h f' assigned k placed call')
    (hbefore : y.before = first ++ code)
    (hsetUp : h.SetUp a ((h.blocks.take k).flatMap (·.instructions) ++ first) code later fetched
      moved) :
    ∃ earlier' code' later' js,
      (h.selectClasses a.target).SetUp a earlier' code' later' fetched moved ∧
      (∀ id, Occurs earlier' id ↔
        Occurs ((h.blocks.take k).flatMap (·.instructions) ++ first) id) ∧
      js <:+ placed ∧ List.Forall₂ Instruction.Recast code code' ∧
      List.Forall₂ (fun i j => Function.placeInstruction a.target f' assigned i = .ok j) code'
        js := by
  obtain ⟨sel, code', js, hselected, hsel, hcode, hjs, hlast⟩ := hy.exists_last hbefore hsetUp.quiet
  have hearlier : List.Forall₂ Instruction.Recast
      ((h.blocks.take k).flatMap (·.instructions) ++ first)
      (((h.selectClasses a.target).blocks.take k).flatMap (·.instructions) ++ sel) :=
    List.rel_append (Function.forall₂_instructions
      (List.forall₂_take k (Function.recast_selectClasses a.target h))) hsel
  have hsplit : (h.selectClasses a.target).instructions =
      ((h.selectClasses a.target).blocks.take k).flatMap (·.instructions) ++ sel ++ code' ++
        y.selectedBehind := by
    rw [hy.instructions_eq, hselected]
    simp
  have hids : (h.selectClasses a.target).paramIds = h.paramIds := rfl
  exact ⟨_, code', _, js, hsetUp.recast hids hsplit hearlier hcode,
    fun id => occurs_recast hearlier, hlast, hcode, hjs⟩

/-- **A call of an allocated function stands behind its set-up**, which leaves in the argument
registers what the arguments were. -/
theorem exists_passes {a : Arch} {g' f' : Machine.Function} {alloc : Allocation}
    (hlower : lowerFunction a.target f = .ok g)
    (halloc : (g.selectClasses a.target).allocateRegisters a.target = .ok g')
    (hassign : (g.selectClasses a.target).assignRegisters a.target = .ok (alloc, f'))
    {block' : Machine.Block} {placed behind' : List Instruction} {call' : Instruction}
    (hblock' : g'.blocks[k]? = some block')
    (hsplit' : block'.instructions = placed ++ call' :: behind') (hcall' : call'.isCall) :
    ∃ (x : CallSite) (code : List Instruction),
      x.IsPlaced a f g f' alloc.assigned k placed call' code ∧
      ∀ symbols σ, (∃ σ', Cpu.Runs a.target symbols code σ σ') ∧
        ∀ σ', Cpu.Runs a.target symbols code σ σ' →
          x.Passes ⟨a.target, f.name⟩ (f'.placement a.target alloc.assigned symbols)
            (fun id => id ∈ g.paramIds ∨ Occurs x.earlier id) σ σ' := by
  have hret := return_of_lowerFunction hlower
  obtain ⟨y, hy⟩ := Function.exists_callOrigin halloc hassign (fun i hi h => (hret i hi h).2) hblock'
    hsplit' hcall'
  obtain ⟨x, hx, hparams⟩ := isSetUp_of_lowerFunction hlower hy.block_eq hy.split hy.isCall
  obtain ⟨fetched, moved, groups, hbefore, hsetUp, hmoves, hplaced, hgroups⟩ :=
    hx.setUp a hparams hy.block_eq hy.split
  have hearlier : x.earlier =
      (g.blocks.take k).flatMap (·.instructions) ++ x.reached.code.toList := by
    rw [CallSite.earlier, hx.blocks_eq]
  rw [hearlier] at hsetUp
  obtain ⟨earlier', code', later', js, hsetUp', hoccurs, hlast, hcode, hjs⟩ :=
    exists_setUp_of_isAt hy hbefore hsetUp
  have hroots : ∀ id reg, alloc.assigned.lookup id = some reg → a.target.registers.root reg = reg :=
    fun _ _ => Function.root_of_assigned a.regular hassign
  have hreturns := length_returns_selectClasses a.target fun i hi h => (hret i hi h).1
  -- the call is the one of the source with the same number
  have hsource := hx.isCallAt
  rw [List.length_take_of_le (Nat.le_of_lt (List.getElem?_eq_some_iff.mp hy.block_eq).1),
    ← hy.countP_isCall] at hsource
  refine ⟨x, js, ⟨hsource, hy.callee_eq hx.call_eq,
    ⟨_, _, _, _, hy.block_eq, hy.split, hy.countP_isCall.symm, hx⟩, hlast,
    forall₂_comp (fun i i' j hi hj => ⟨i', hi, hj⟩) hcode hjs⟩, fun symbols σ =>
      ⟨exists_runs hroots hsetUp'.fills hjs σ, fun σ' hruns => ?_⟩⟩
  have hpasses := passes_of_setUp hsetUp' hassign hreturns hmoves hplaced hgroups
    (run_of_runs hroots hsetUp'.fills hjs hruns)
  simp only [hoccurs, ← hearlier] at hpasses
  exact hpasses

/-- The arguments of every call of an allocated function arrive: right before the call stands the
set-up that lowering made for it, and when it has run, every argument register holds, to the width of its
part of an argument, what that part was before.  Temporaries are to be mentioned in front of the
set-up. -/
def ArgumentsArrive (a : Arch) (f : Ir.Function) (g g' : Machine.Function) : Prop :=
  ∃ alloc f', (g.selectClasses a.target).assignRegisters a.target = .ok (alloc, f') ∧
    ∀ k block placed call behind, g'.blocks[k]? = some block →
      block.instructions = placed ++ call :: behind → call.isCall →
      ∃ (x : CallSite) (code : List Instruction),
        x.IsPlaced a f g f' alloc.assigned k placed call code ∧
        ∀ symbols σ, (∃ σ', Cpu.Runs a.target symbols code σ σ') ∧
          ∀ σ', Cpu.Runs a.target symbols code σ σ' →
            x.Passes ⟨a.target, f.name⟩ (f'.placement a.target alloc.assigned symbols)
              (fun id => id ∈ g.paramIds ∨ Occurs x.earlier id) σ σ'

/-- **Arguments arrive**: from the first write of an argument register to the call, lowered code
reads no parameter, and once the code is allocated, every call finds its arguments in the registers
of the convention. -/
theorem arguments_arrive {a : Arch} (hlower : lowerFunction a.target f = .ok g) :
    (∀ block ∈ g.blocks, ∀ before call behind, block.instructions = before ++ call :: behind →
      call.isCall → ∀ i ∈ window before, ¬i.ReadsParameter g.paramIds) ∧
    ∀ g', (g.selectClasses a.target).allocateRegisters a.target = .ok g' →
      ArgumentsArrive a f g g' := by
  refine ⟨fun block hblock before call behind hsplit hcall i hi =>
    not_readsParameter_of_lowerFunction a hlower hblock hsplit hcall hi, fun g' halloc => ?_⟩
  obtain ⟨⟨alloc, f'⟩, hassign, -⟩ := bind_eq_ok.mp halloc
  exact ⟨alloc, f', hassign, fun k block placed call behind hblock hsplit hcall =>
    exists_passes hlower halloc hassign hblock hsplit hcall⟩

/-- A function that passes its parameters on in the other order. -/
def swapping : Ir.Function where
  name := "f"
  returnType := .void
  parameters := [⟨"p", .i32, false⟩, ⟨"q", .i32, false⟩]
  blocks := [⟨"entry", [.call none "g" [.param "q" .i32, .param "p" .i32] .void none, .ret none]⟩]

theorem swapping_arrives : ∃ g g', lowerFunction .aarch64 swapping = .ok g ∧
    (g.selectClasses .aarch64).allocateRegisters .aarch64 = .ok g' ∧
    g'.blocks.any (·.instructions.any (·.isCall)) ∧ ArgumentsArrive .aarch64 swapping g g' := by
  have hcalls : (do
      let g ← lowerFunction .aarch64 swapping
      let g' ← (g.selectClasses .aarch64).allocateRegisters .aarch64
      pure (g'.blocks.any (·.instructions.any (·.isCall)))) = .ok true := by
    decide +kernel
  obtain ⟨g, hg, hcalls⟩ := bind_eq_ok.mp hcalls
  obtain ⟨g', hg', hcalls⟩ := bind_eq_ok.mp hcalls
  exact ⟨g, g', hg, hg', pure_eq_ok.mp hcalls, (arguments_arrive (a := .aarch64) hg).2 g' hg'⟩

/-! ## Temporaries of later blocks -/

/-- A call in front of the block that computes its last argument. -/
def late : Ir.Function where
  name := "f"
  returnType := .void
  parameters := [⟨"p", .i32, false⟩]
  blocks := [⟨"entry", [.jump "def"]⟩,
    ⟨"use", [.call none "g" (List.replicate 7 (.param "p" .i32) ++ [.temp 0 .i32]) .void none,
      .ret none]⟩,
    ⟨"def", [.binary 0 .add (.param "p" .i32) (.param "p" .i32) .i32, .jump "use"]⟩]

/-- Its code: the temporary has the id 8. -/
def lateCode : Machine.Function where
  name := "f"
  params := [⟨0, .integer 32, false, false⟩]
  isCaller := true
  nextId := 9
  blocks :=
    let parameter := Operand.parameter 0 (.integer 32)
    let virtual := fun id => Operand.virtualReg id (.integer 32)
    let fetches := (List.range 7).map fun k => .generic .mov [virtual (k + 1), parameter]
    let moves := (List.range 8).map fun k =>
      .generic .mov [.physicalReg (10 + k) (.integer 32), virtual (k + 1)]
    [⟨"entry", [.generic .jump [.label "def"]]⟩,
    ⟨"use", fetches ++ moves ++ [.generic .call [.function "g"], .generic .ret []]⟩,
    ⟨"def", [.generic .add [virtual 8, parameter, parameter], .generic .jump [.label "use"]]⟩]

/-- Its set-up, in which the first copy and the temporary are in one register. -/
def lateSetUp : List Instruction :=
  let copies := [5, 6, 7, 28, 29, 30, 31]
  let placed := fun reg => ⟨.physicalReg reg, .integer 32, some Target.Riscv.gpr⟩
  copies.map (fun reg => .generic .mov [placed reg, placed 10]) ++
    ((List.range 8).zip (copies ++ [5])).map fun entry =>
      .generic .mov [.physicalReg (10 + entry.1) (.integer 32), placed entry.2]

/-- **A set-up may overwrite a temporary that nothing in front of it mentions**: the call gets the
parameter instead. -/
theorem late_overwritten : lowerFunction .riscv32 late = .ok lateCode ∧
    ∃ alloc f' g',
      (lateCode.selectClasses .riscv32).assignRegisters .riscv32 = .ok (alloc, f') ∧
      (lateCode.selectClasses .riscv32).allocateRegisters .riscv32 = .ok g' ∧
      g'.blocks[1]?.map (·.instructions) =
        some (lateSetUp ++ [.generic .call [.function "g"], .generic .ret []]) ∧
      ∀ symbols, ∃ σ σ', Cpu.Runs .riscv32 symbols lateSetUp σ σ' ∧
        σ'.read 17 32 ≠ σ.read ((f'.placement .riscv32 alloc.assigned symbols).home 8) 32 := by
  have hassigned : ((lateCode.selectClasses .riscv32).assignRegisters .riscv32).map
      (·.1.assigned.lookup 8) = .ok (some 5) := by decide +kernel
  have hplaced : ((lateCode.selectClasses .riscv32).allocateRegisters .riscv32).map
      (·.blocks[1]?.map (·.instructions)) =
        .ok (some (lateSetUp ++ [.generic .call [.function "g"], .generic .ret []])) := by
    decide +kernel
  obtain ⟨⟨alloc, f'⟩, hassign, hlookup⟩ := map_eq_ok.mp hassigned
  obtain ⟨g', halloc, hblock⟩ := map_eq_ok.mp hplaced
  refine ⟨by decide +kernel, alloc, f', g', hassign, halloc, hblock, fun symbols => ?_⟩
  have hmoves : ∀ i ∈ lateSetUp, ∃ d s x y, i = .generic .mov [d, s] ∧
      d.kind = .physicalReg x ∧ s.kind = .physicalReg y := by
    intro i hi
    rcases List.mem_append.mp hi with hi | hi
    · obtain ⟨_, -, rfl⟩ := List.mem_map.mp hi
      exact ⟨_, _, _, _, rfl, rfl, rfl⟩
    · obtain ⟨_, -, rfl⟩ := List.mem_map.mp hi
      exact ⟨_, _, _, _, rfl, rfl, rfl⟩
  -- the first copy overwrites what is in register 5
  have hrest : Cpu.Runs .riscv32 symbols lateSetUp.tail (.zeros _) (.zeros _) :=
    Cpu.runs_zeros fun i hi => hmoves i (List.mem_of_mem_tail hi)
  have hfirst : ∀ i ∈ lateSetUp.head?, Cpu.Step .riscv32 symbols i
      ⟨fun reg => if reg = 5 then 1 else 0, fun _ => 0⟩ (.zeros _) := by
    rintro i ⟨⟩
    exact .write rfl rfl rfl rfl (fun r hr => (if_neg hr).symm) rfl
  refine ⟨_, _, .cons (hfirst _ rfl) hrest, ?_⟩
  rw [Function.home_placement hlookup]
  decide

end Lowering

end Retarget
