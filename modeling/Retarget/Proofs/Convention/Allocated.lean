import Retarget.Proofs.Convention.Delivery
import Retarget.Proofs.Shape.Passes

/-!
# Code through class selection and allocation

Class selection changes nothing but classes (`Instruction.Recast`), and allocation works block by
block: the moves before returns are put in, and then every instruction is placed
(`forall₂_allocateRegisters`).  So a call in an allocated function stands behind what its block has
before the call, with moves before earlier returns only (`exists_before_of_isCall`).
-/

namespace Retarget

namespace Machine

variable {t : Target} {i j : Instruction} {fill fill' : Fill}

/-! ## Classes -/

/-- The same instruction, but for the classes of its operands. -/
structure Instruction.Recast (i j : Instruction) : Prop where
  opcode : j.opcode = i.opcode
  flags : j.flags = i.flags
  operands : List.Forall₂ (fun o o' : Operand => o'.kind = o.kind ∧ o'.ty = o.ty) i.operands
    j.operands

namespace Instruction.Recast

theorem isCall_eq (h : i.Recast j) : j.isCall = i.isCall := congrArg Flags.call h.flags

theorem isReturn_eq (h : i.Recast j) : j.isReturn = i.isReturn := congrArg Flags.ret h.flags

theorem ids_eq (h : i.Recast j) : j.ids = i.ids := by
  have hids : ∀ {os os' : List Operand},
      List.Forall₂ (fun o o' : Operand => o'.kind = o.kind ∧ o'.ty = o.ty) os os' →
      os'.filterMap (·.unallocated?) = os.filterMap (·.unallocated?) := by
    intro os os' hos
    induction hos with
    | nil => rfl
    | cons hfirst _ ih =>
      rw [List.filterMap_cons, List.filterMap_cons, ih, Operand.unallocated?, Operand.unallocated?,
        hfirst.1]
  exact hids h.operands

theorem fills (h : i.Recast j) (hi : i.Fills fill) : j.Fills fill := by
  obtain ⟨hop, hoperands, hd, hs⟩ := hi
  rename_i op d s o
  have hall := h.operands
  rw [hoperands] at hall
  obtain ⟨d', rest, ⟨hdKind, hdTy⟩, hrest, hj⟩ := List.forall₂_cons_left_iff.mp hall
  obtain ⟨s', rest', ⟨hsKind, hsTy⟩, hnil, rfl⟩ := List.forall₂_cons_left_iff.mp hrest
  cases hnil
  have hdest : (⟨d.kind, d.ty, o⟩ : Fill) = ⟨d'.kind, d'.ty, o⟩ := by rw [hdKind, hdTy]
  have hgeneric : j.generic? = some op := (congrArg Opcode.generic? h.opcode).trans hop
  rw [hdest]
  refine .intro hgeneric hj ?_ ?_
  · rwa [Operand.isRegLike, hdKind]
  · cases hs with
    | mov hx =>
      refine .mov ?_
      rwa [Operand.datum?, hsKind]
    | movf hx =>
      refine .movf ?_
      rwa [Operand.datum?, hsKind]
    | load ho =>
      refine .load ?_
      rwa [Operand.bytes?, hsKind]
    | stackAddress hslot => exact .stackAddress (hsKind.trans hslot)
    | globalAddress hname => exact .globalAddress (hsKind.trans hname)

end Instruction.Recast

theorem occurs_recast {is js : List Instruction} (h : List.Forall₂ Instruction.Recast is js)
    {id : RegId} : Occurs js id ↔ Occurs is id := by
  induction h with
  | nil => rfl
  | cons hfirst _ ih => simp only [Occurs, List.exists_mem_cons_iff, hfirst.ids_eq] at ih ⊢; rw [ih]

theorem not_isReturn_of_recast {is js : List Instruction} (h : List.Forall₂ Instruction.Recast is js)
    (hquiet : ∀ i ∈ is, i.isReturn = false) : ∀ j ∈ js, j.isReturn = false := by
  intro j hj
  obtain ⟨before, after, rfl⟩ := List.append_of_mem hj
  obtain ⟨_, i, _, rfl, -, hi, -⟩ := exists_cons_of_forall₂_cons h
  rw [hi.isReturn_eq]
  exact hquiet i (by simp)

theorem forall₂_comp {α β γ : Type} {R : α → β → Prop} {S : β → γ → Prop} {T : α → γ → Prop}
    (h : ∀ a b c, R a b → S b c → T a c) {as : List α} {bs : List β} {cs : List γ}
    (has : List.Forall₂ R as bs) (hbs : List.Forall₂ S bs cs) : List.Forall₂ T as cs := by
  induction has generalizing cs with
  | nil =>
    cases hbs
    exact .nil
  | cons hfirst _ ih =>
    cases hbs with
    | cons hsecond hrest => exact .cons (h _ _ _ hfirst hsecond) (ih hrest)

theorem countP_eq_of_forall₂ {α β : Type} {R : α → β → Prop} {p : α → Bool} {q : β → Bool}
    {as : List α} {bs : List β} (h : List.Forall₂ R as bs) (hR : ∀ a b, R a b → q b = p a) :
    bs.countP q = as.countP p := by
  induction h with
  | nil => rfl
  | cons hfirst _ ih => rw [List.countP_cons, List.countP_cons, ih, hR _ _ hfirst]

/-- What a step holds of, an accumulating map holds of elementwise. -/
theorem forall₂_mapAccum {σ α β : Type} {g : σ → α → σ × β} {R : α → β → Prop}
    (h : ∀ s a, R a (g s a).2) (s : σ) (as : List α) :
    List.Forall₂ R as (mapAccum g s as).2 := by
  induction as generalizing s with
  | nil => exact .nil
  | cons a as ih => exact .cons (h s a) (ih _)

theorem Classes.recast_visitInstruction (cs : Classes) (i : Instruction) :
    i.Recast (visitInstruction t cs i).2 := by
  refine ⟨rfl, rfl, ?_⟩
  have hvisit : List.Forall₂ (fun (entry : Operand × Nat) (o' : Operand) =>
      o'.kind = entry.1.kind ∧ o'.ty = entry.1.ty) i.operands.zipIdx
      (mapAccum (visitOperand t i) (cs.inherit i) i.operands.zipIdx).2 := by
    refine forall₂_mapAccum (fun cs entry => ⟨kind_visitOperand i cs entry, ?_⟩) _ _
    rw [visitOperand]
    dsimp only
    split
    · rfl
    · split <;> rfl
  have hfst : i.operands.zipIdx.map Prod.fst = i.operands := List.zipIdx_map_fst 0 _
  rw [← hfst, List.forall₂_map_left_iff]
  exact hvisit

theorem Classes.recast_visitBlock (cs : Classes) (b : Block) :
    List.Forall₂ Instruction.Recast b.instructions (visitBlock t cs b).2.instructions :=
  forall₂_mapAccum recast_visitInstruction cs b.instructions

theorem Function.recast_selectClasses (t : Target) (f : Function) :
    List.Forall₂ (fun b b' : Block => List.Forall₂ Instruction.Recast b.instructions b'.instructions)
      f.blocks (f.selectClasses t).blocks :=
  forall₂_mapAccum (g := Classes.visitBlock t)
    (R := fun b b' => List.Forall₂ Instruction.Recast b.instructions b'.instructions)
    Classes.recast_visitBlock _ f.blocks

/-! ## Allocation -/

namespace Function

variable {f g : Function} {ranges : List LiveRange} {bound bound' : List (RegId × RegId)}

theorem forall₂_bindBlocks {blocks blocks' : List Block}
    (h : bindBlocks t f ranges bound blocks = .ok (bound', blocks')) :
    List.Forall₂ (fun b b' : Block => ∃ plan, Plan.Movable plan ∧ plan.map (·.1) = b.instructions ∧
      b'.instructions = Plan.code t plan) blocks blocks' := by
  induction blocks generalizing bound blocks' with
  | nil =>
    cases h
    exact .nil
  | cons block blocks ih =>
    rw [bindBlocks] at h
    obtain ⟨⟨bound₁, out⟩, hblock, h⟩ := bind_eq_ok.mp h
    obtain ⟨⟨bound₂, rest⟩, hrest, h⟩ := bind_eq_ok.mp h
    cases h
    obtain ⟨plan, hplan, hfst, hcode⟩ := bindInstructions_plan hblock
    exact .cons ⟨plan, hplan.movable, hfst, hcode⟩ (ih hrest)

/-- **Allocation works block by block**: it puts moves before returns and places what there is. -/
theorem forall₂_allocateRegisters (h : f.allocateRegisters t = .ok g) :
    ∃ alloc f', f.assignRegisters t = .ok (alloc, f') ∧
      List.Forall₂ (fun b b' : Block => ∃ plan, Plan.Movable plan ∧
        plan.map (·.1) = b.instructions ∧ List.Forall₂
          (fun i j => placeInstruction t f' alloc.assigned i = .ok j) (Plan.code t plan)
          b'.instructions) f.blocks g.blocks := by
  obtain ⟨alloc, f', blocks, hassign, rfl, hblocks⟩ := exists_placed_of_allocateRegisters h
  refine ⟨alloc, f', hassign, ?_⟩
  obtain ⟨params, bound, g', scan, -, hreturns, -, rfl, rfl⟩ :=
    exists_scan_of_assignRegisters hassign
  obtain ⟨⟨bound', blocks'⟩, hbind, hreturns⟩ := bind_eq_ok.mp hreturns
  cases hreturns
  refine forall₂_comp (fun b b₁ b' => ?_) (forall₂_bindBlocks hbind) hblocks
  rintro ⟨plan, hmovable, hfst, hcode⟩ hplaced
  rw [hcode] at hplaced
  exact ⟨plan, hmovable, hfst, hplaced⟩

theorem Plan.exists_split_of_isCall {plan : List (Instruction × Option RegId)}
    (hmovable : Plan.Movable plan)
    (hreturns : ∀ i ∈ plan.map (·.1), i.isReturn → i.isCall = false)
    {xs ys : List Instruction} (hsplit : Plan.code t plan = xs ++ i :: ys) (hcall : i.isCall) :
    ∃ first second, plan = first ++ (i, none) :: second ∧ xs = Plan.code t first := by
  have hat : (Plan.code t plan)[xs.length]? = some i := by simp [hsplit]
  obtain ⟨n, ⟨j, home⟩, hfrom⟩ := Plan.exists_comesFrom hat
  have hmem : (j, home) ∈ plan := List.mem_of_getElem? hfrom.decision
  cases home with
  | some home =>
    obtain ⟨id, ty, hret⟩ := hmovable j home hmem
    obtain ⟨k, hk, -⟩ := hfrom.offset
    have hnot := isCall_moveReturn
      (hreturns j (List.mem_map_of_mem (f := Prod.fst) hmem) (returned?_eq_some hret).1)
      (List.mem_of_getElem? hk)
    simp [hcall] at hnot
  | none =>
    obtain ⟨rfl, hlength⟩ := hfrom.of_none
    obtain ⟨hn, hget⟩ := List.getElem?_eq_some_iff.mp hfrom.decision
    have hplan : plan = plan.take n ++ (i, none) :: plan.drop (n + 1) := by
      rw [← hget, List.getElem_cons_drop, List.take_append_drop]
    refine ⟨_, _, hplan, ?_⟩
    have hcode : Plan.code t plan =
        Plan.code t (plan.take n) ++ Plan.code t ((i, none) :: plan.drop (n + 1)) := by
      rw [Plan.code, Plan.code, Plan.code, ← List.flatMap_append, ← hplan]
    exact (List.append_inj (hsplit.symm.trans hcode) hlength).1

theorem Plan.code_eq_of_not_isReturn {plan : List (Instruction × Option RegId)}
    (hmovable : Plan.Movable plan) (hreturns : ∀ i ∈ plan.map (·.1), i.isReturn = false) :
    Plan.code t plan = plan.map (·.1) := by
  induction plan with
  | nil => rfl
  | cons e plan ih =>
    obtain ⟨i, home⟩ := e
    obtain ⟨hfirst, hrest⟩ := List.forall_mem_cons.mp hreturns
    rw [Plan.code_cons, List.map_cons, ih (Plan.movable_cons hmovable).2 hrest]
    cases home with
    | none => rfl
    | some home =>
      obtain ⟨id, ty, hret⟩ := hmovable i home List.mem_cons_self
      have hisReturn := (returned?_eq_some hret).1
      simp [hfirst] at hisReturn

/-- Moves before returns change no count of instructions that are no moves. -/
theorem Plan.countP_code {p : Instruction → Bool} (t : Target)
    (hmoves : ∀ op dest value, op = .mov ∨ op = .movf → p (.generic op [dest, value]) = false)
    (hreturns : ∀ i o, p (i.replaceOperand 0 o) = p i)
    (plan : List (Instruction × Option RegId)) :
    (Plan.code t plan).countP p = (plan.map (·.1)).countP p := by
  have hmove : ∀ i home, (moveReturn t i home).countP p = [i].countP p := by
    intro i home
    unfold moveReturn
    split
    · next home value _ =>
      have hfirst := hmoves (if value.ty.isFloat then .movf else .mov)
        (.physicalReg (t.registers.withWidth home value.size) value.ty) value
        (by split <;> simp)
      rw [List.countP_cons_of_neg (by simp [hfirst]), List.countP_singleton, List.countP_singleton,
        hreturns]
    · rfl
  induction plan with
  | nil => rfl
  | cons e plan ih =>
    rw [code_cons, List.countP_append, hmove, ih, List.map_cons, ← List.countP_append]
    rfl

theorem instructions_eq_of_getElem? {k : Nat} {b : Block} (h : f.blocks[k]? = some b) :
    f.instructions = (f.blocks.take k).flatMap (·.instructions) ++
      (b.instructions ++ (f.blocks.drop (k + 1)).flatMap (·.instructions)) := by
  obtain ⟨hk, hb⟩ := List.getElem?_eq_some_iff.mp h
  have hblocks : f.blocks = f.blocks.take k ++ b :: f.blocks.drop (k + 1) := by
    rw [← hb, List.getElem_cons_drop, List.take_append_drop]
  rw [instructions, ← List.flatMap_cons, ← List.flatMap_append, ← hblocks]

/-- Where a call of an allocated function comes from: its block, the code around it before and behind
class selection, and the plan of the moves up to the call. -/
structure CallOrigin where
  block : Block
  before : List Instruction
  call : Instruction
  behind : List Instruction
  selected : List Instruction
  selectedBehind : List Instruction
  plan : List (Instruction × Option RegId)

/-- The call `last` in block `k`, over the registers `assigned`, and the code `placed` before it come
from there. -/
structure CallOrigin.IsAt (y : CallOrigin) (t : Target) (f f' : Function)
    (assigned : List (RegId × RegId)) (k : Nat) (placed : List Instruction) (last : Instruction) :
    Prop where
  block_eq : f.blocks[k]? = some y.block
  split : y.block.instructions = y.before ++ y.call :: y.behind
  isCall : y.call.isCall
  recast : List.Forall₂ Instruction.Recast y.before y.selected
  instructions_eq : (f.selectClasses t).instructions =
    ((f.selectClasses t).blocks.take k).flatMap (·.instructions) ++ (y.selected ++ y.selectedBehind)
  movable : Plan.Movable y.plan
  fst_eq : y.plan.map (·.1) = y.selected
  placed_eq : List.Forall₂ (fun i j => placeInstruction t f' assigned i = .ok j)
    (Plan.code t y.plan) placed
  last_eq : ∃ i, y.call.Recast i ∧ placeInstruction t f' assigned i = .ok last

/-- **Every call of an allocated function was there before**, and so was the code in front of it,
but for the moves before returns. -/
theorem exists_callOrigin {f' : Function} {alloc : Allocation}
    (h : (f.selectClasses t).allocateRegisters t = .ok g)
    (hassign : (f.selectClasses t).assignRegisters t = .ok (alloc, f'))
    (hreturns : ∀ i ∈ f.instructions, i.isReturn → i.isCall = false) {k : Nat} {block' : Block}
    {placed behind' : List Instruction} {call' : Instruction} (hblock' : g.blocks[k]? = some block')
    (hsplit' : block'.instructions = placed ++ call' :: behind') (hcall' : call'.isCall) :
    ∃ y : CallOrigin, y.IsAt t f f' alloc.assigned k placed call' := by
  obtain ⟨alloc', f'', hassign', hblocks⟩ := forall₂_allocateRegisters h
  cases hassign.symm.trans hassign'
  have hclasses := recast_selectClasses t f
  -- the block in the three functions
  obtain ⟨hk, hget'⟩ := List.getElem?_eq_some_iff.mp hblock'
  have hk₁ : k < (f.selectClasses t).blocks.length := hblocks.length_eq ▸ hk
  have hk₀ : k < f.blocks.length := hclasses.length_eq ▸ hk₁
  obtain ⟨plan, hmovable, hfst, hplaced⟩ := hblocks.get hk₁ hk
  have hrecast := hclasses.get hk₀ hk₁
  simp only [List.get_eq_getElem] at hfst hplaced hrecast
  rw [hget', hsplit'] at hplaced
  obtain ⟨xs, i, ys, hcode, hxs, hi, -⟩ := exists_cons_of_forall₂_cons hplaced
  have hcalls : i.isCall := by
    rw [Instruction.isCall, ← flags_placeInstruction hi]
    exact hcall'
  have hselected : ∀ j ∈ plan.map (·.1), j.isReturn → j.isCall = false := by
    intro j hj hjret
    rw [hfst] at hj
    obtain ⟨before, after, hsplit⟩ := List.append_of_mem hj
    rw [hsplit] at hrecast
    obtain ⟨_, j₀, _, hblock, -, hj₀, -⟩ := exists_cons_of_forall₂_cons hrecast
    rw [hj₀.isCall_eq]
    refine hreturns j₀ (mem_instructions.mpr ⟨_, List.getElem_mem hk₀, by simp [hblock]⟩) ?_
    rw [← hj₀.isReturn_eq]
    exact hjret
  obtain ⟨first, second, rfl, rfl⟩ := Plan.exists_split_of_isCall hmovable hselected hcode hcalls
  rw [List.map_append, List.map_cons] at hfst
  rw [← hfst] at hrecast
  obtain ⟨before, call, behind, hblock, hbefore, hcall, hbehind⟩ :=
    exists_cons_of_forall₂_cons hrecast
  have hall := instructions_eq_of_getElem? (List.getElem?_eq_getElem hk₁)
  rw [← hfst, List.append_assoc] at hall
  exact ⟨⟨_, before, call, behind, first.map (·.1), _, first⟩, List.getElem?_eq_getElem hk₀, hblock,
    hcall.isCall_eq ▸ hcalls, hbefore, hall,
    fun j reg hmem => hmovable j reg (List.mem_append_left _ hmem), rfl, hxs, i, hcall, hi⟩

theorem CallOrigin.IsAt.countP_isCall {f' : Function} {assigned : List (RegId × RegId)} {k : Nat}
    {placed : List Instruction} {last : Instruction} {y : CallOrigin}
    (hy : y.IsAt t f f' assigned k placed last) :
    placed.countP (·.isCall) = y.before.countP (·.isCall) := by
  have hplaced : placed.countP (·.isCall) = (Plan.code t y.plan).countP (·.isCall) :=
    countP_eq_of_forall₂ hy.placed_eq fun i j hj => by
      rw [Instruction.isCall, Instruction.isCall, flags_placeInstruction hj]
  rw [hplaced, Plan.countP_code t (by rintro op dest value (rfl | rfl) <;> rfl) (fun _ _ => rfl),
    hy.fst_eq]
  exact countP_eq_of_forall₂ hy.recast fun _ _ h => h.isCall_eq

theorem CallOrigin.IsAt.callee_eq {f' : Function} {assigned : List (RegId × RegId)} {k : Nat}
    {placed : List Instruction} {last : Instruction} {callee : String} {y : CallOrigin}
    (hy : y.IsAt t f f' assigned k placed last)
    (hcall : y.call = .generic .call [.function callee]) :
    last.generic? = some .call ∧ last.operands.map (·.kind) = [.function callee] := by
  obtain ⟨i, hrecast, hlast⟩ := hy.last_eq
  rw [hcall] at hrecast
  refine ⟨?_, ?_⟩
  · rw [Instruction.generic?, opcode_placeInstruction hlast, hrecast.opcode]
    rfl
  · obtain ⟨o, rest, ⟨hkind, -⟩, hrest, hoperands⟩ :=
      List.forall₂_cons_left_iff.mp hrecast.operands
    cases hrest
    have hname : o.kind = .function callee := hkind
    have hplaced := operands_placeInstruction (by simp [Instruction.layout, hoperands,
      Operand.isPlace, Operand.isMemory, Operand.isStack, hname]) hlast
    rw [hoperands] at hplaced
    obtain ⟨o', rest, hsame, hrest, hlast⟩ := List.forall₂_cons_left_iff.mp hplaced
    cases hrest
    rw [placeOperand, hname] at hsame
    cases hsame
    rw [hlast, List.map_singleton, hname]

/-- What ends the code in front of a call is placed as it is, if there is no return in it. -/
theorem CallOrigin.IsAt.exists_last {f' : Function} {assigned : List (RegId × RegId)} {k : Nat}
    {placed first code : List Instruction} {last : Instruction} {y : CallOrigin}
    (hy : y.IsAt t f f' assigned k placed last)
    (hbefore : y.before = first ++ code) (hquiet : ∀ i ∈ code, i.isReturn = false) :
    ∃ first' code' js, y.selected = first' ++ code' ∧ List.Forall₂ Instruction.Recast first first' ∧
      List.Forall₂ Instruction.Recast code code' ∧
      List.Forall₂ (fun i j => placeInstruction t f' assigned i = .ok j) code' js ∧
      js <:+ placed := by
  have hrecast := hy.recast.flip
  rw [hbefore] at hrecast
  obtain ⟨first', code', hselected, hfirst, hcode⟩ := exists_append_of_forall₂_append hrecast
  have hplan := hy.fst_eq
  rw [hselected] at hplan
  obtain ⟨before, last, hsplit, -, hlast⟩ := List.map_eq_append_iff.mp hplan
  have hquiet' := not_isReturn_of_recast hcode.flip hquiet
  have hlastCode : Plan.code t last = code' := by
    rw [← hlast] at hquiet' ⊢
    exact Plan.code_eq_of_not_isReturn
      (fun i reg hmem => hy.movable i reg (by simp [hsplit, hmem])) hquiet'
  have hplaced := hy.placed_eq.flip
  rw [hsplit, Plan.code, List.flatMap_append] at hplaced
  obtain ⟨before', js, rfl, -, hjs⟩ := exists_append_of_forall₂_append hplaced
  exact ⟨first', code', js, hselected, hfirst.flip, hcode.flip, hlastCode ▸ hjs.flip,
    List.suffix_append before' js⟩

end Function

end Machine

end Retarget
