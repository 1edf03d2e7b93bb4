import Retarget.Proofs.Shape.Pipeline
import Retarget.Proofs.Symbols.Homes

/-!
# Set-ups in native code

What the passes behind lowering make of the code in front of a call stands in front of the compiled
call, instruction by instruction (`Function.CallsAfter.exists_compiled`).  All native code of an
instruction writes what the instruction sets and keeps all else (`Arch.Compiles.keeps`).  Between two
mentions of an id nothing else is put into its register, and an id that is first mentioned where an
address goes has a register that holds addresses (`Compiled`).
-/

namespace Retarget

open Machine Target

variable {a : Arch} {f f' f₁ f₂ f₃ g : Function} {assigned : List (RegId × RegId)} {i : Instruction}
  {d : Operand} {code out earlier before : List Instruction} {k n : Nat} {callee : String}

/-- The code may be what the passes behind lowering make of an instruction. -/
def Arch.Compiles (a : Arch) (f : Function) (assigned : List (RegId × RegId)) (i : Instruction)
    (out : List Instruction) : Prop :=
  ∃ part, a.Expanded i part ∧ Unfolds (a.Emits f assigned) part out

namespace Arch.Compiles

variable {symbols : String → BitVec a.target.pointerBits} {reg : RegId}
  (hroots : ∀ id reg, assigned.lookup id = some reg → a.target.registers.root reg = reg)
  (h : a.Compiles f assigned i out) (hi : i.Sets d)
include hroots h hi

theorem exists_def (symbols : String → BitVec a.target.pointerBits) : ∀ j ∈ out,
    a.calls j = false ∧ ∃ d' reg, j.def? = some d' ∧ d'.kind = .physicalReg reg ∧
      a.target.registers.root reg = (f.placement a.target assigned symbols).root d.kind := by
  obtain ⟨part, hexpanded, hemits⟩ := h
  obtain ⟨fill, hfill⟩ := hi.fills
  intro j hj
  obtain ⟨l, hl, code, hcode, hj⟩ := hemits.exists_of_mem hj
  obtain ⟨hdef, hcalls⟩ := hexpanded.sets hi l hl
  exact ⟨hcode.not_calls hcalls j hj, hcode.exists_def symbols hroots hdef hi.exists_operands.1
    (hexpanded.endures hfill l hl) j hj⟩

theorem keeps (hne : (f.placement a.target assigned symbols).root d.kind ≠ reg) :
    ∀ j ∈ out, a.Keeps j reg := by
  intro j hj
  obtain ⟨hcalls, d', r, hdef, hkind, hroot⟩ := h.exists_def hroots hi symbols j hj
  refine ⟨hcalls, fun hwrites => hne ?_⟩
  rw [writes?_of_def? hdef hkind] at hwrites
  exact hroot.symm.trans (Option.some.inj hwrites)

theorem isReturn_eq : ∀ j ∈ out, j.isReturn = false := by
  intro j hj
  obtain ⟨-, d', r, hdef, -⟩ := h.exists_def hroots hi (fun _ => 0) j hj
  exact Instruction.isReturn_eq_of_def? hdef

end Arch.Compiles

/-- Code for which native code stands, where ids have the registers that they are assigned: an id
that is mentioned on both sides of an instruction keeps its register to itself, and an id that
nothing mentions until an address goes there is in a register for addresses. -/
structure Compiled (a : Arch) (f : Function) (earlier code : List Instruction) (f' : Function)
    (assigned : List (RegId × RegId)) (out : List Instruction) : Prop where
  unfolds : Unfolds (a.Compiles f' assigned) code out
  roots : ∀ id reg, assigned.lookup id = some reg → a.target.registers.root reg = reg
  apart : ∀ symbols xs i ys d id, code = xs ++ i :: ys → i.Sets d →
    ((∃ w, d.kind = .virtualReg w) ∨ ∃ reg, d.kind = .physicalReg reg) → d.kind ≠ .virtualReg id →
    id ∉ f.paramIds → Occurs xs id → Occurs ys id →
      (f'.placement a.target assigned symbols).root d.kind ≠
        (f'.placement a.target assigned symbols).home id
  holds : ∀ xs ys id source, code = xs ++ .generic .globalAddress
      [.virtualReg id a.target.pointerType, source] :: ys → id ∉ f.paramIds →
    ¬Occurs (earlier ++ xs) id → ∃ home, assigned.lookup id = some home ∧
      a.HoldsAddress (a.target.registers.withWidth home a.target.pointerBits)

namespace Compiled

variable {reg id : RegId} {name : String} {front mid post xs ys : List Instruction}
  {fetch move : Instruction} {op : GenericOp}
  {symbols : String → BitVec a.target.pointerBits}

theorem keeps_of_unfolds (symbols : String → BitVec a.target.pointerBits)
    (h : Compiled a f earlier code f' assigned out)
    (hunfolds : Unfolds (a.Compiles f' assigned) xs ys)
    (hxs : ∀ i ∈ xs, ∃ d, i.Sets d ∧ (f'.placement a.target assigned symbols).root d.kind ≠ reg) :
    ∀ j ∈ ys, a.Keeps j reg := by
  intro j hj
  obtain ⟨i, hi, part, hpart, hj⟩ := hunfolds.exists_of_mem hj
  obtain ⟨d, hd, hne⟩ := hxs i hi
  exact hpart.keeps h.roots hd hne j hj

theorem not_calls (h : Compiled a f earlier code f' assigned out)
    (hcode : ∀ i ∈ code, ∃ d, i.Sets d) : ∀ j ∈ out, a.calls j = false := by
  intro j hj
  obtain ⟨i, hi, part, hpart, hj⟩ := h.unfolds.exists_of_mem hj
  obtain ⟨d, hd⟩ := hcode i hi
  exact (hpart.exists_def h.roots hd (fun _ => 0) j hj).1

theorem keeps_between {first last : Instruction} (symbols : String → BitVec a.target.pointerBits)
    (h : Compiled a f earlier code f' assigned out)
    (hunfolds : Unfolds (a.Compiles f' assigned) mid ys)
    (hsplit : code = front ++ first :: (mid ++ last :: post)) (hparam : id ∉ f.paramIds)
    (hfirst : id ∈ first.ids) (hlast : id ∈ last.ids)
    (hmid : ∀ i ∈ mid, ∃ d, i.Sets d ∧ ((∃ w, d.kind = .virtualReg w) ∨
      ∃ reg, d.kind = .physicalReg reg) ∧ d.kind ≠ .virtualReg id) :
    ∀ j ∈ ys, a.Keeps j ((f'.placement a.target assigned symbols).home id) := by
  refine h.keeps_of_unfolds symbols hunfolds fun i hi => ?_
  obtain ⟨d, hd, hkind, hne⟩ := hmid i hi
  obtain ⟨mid₁, mid₂, rfl⟩ := List.append_of_mem hi
  have hat : code = (front ++ first :: mid₁) ++ i :: (mid₂ ++ last :: post) := by
    rw [hsplit]
    simp
  exact ⟨d, hd, h.apart symbols _ i _ d id hat hd hkind hne hparam
    (occurs_append.mpr (.inr ⟨first, List.mem_cons_self, hfirst⟩))
    (occurs_append.mpr (.inr ⟨last, List.mem_cons_self, hlast⟩))⟩

variable (h : Compiled a f earlier code f' assigned out)
  (hpost : ∀ i ∈ post, ∃ d, i.Sets d ∧ ∀ P : Placement a.target,
    P.root d.kind ≠ a.target.registers.root reg)
include h hpost

theorem puts_address (hsplit : code = front ++ .generic .globalAddress
      [.physicalReg (a.target.registers.withWidth reg a.target.pointerBits) a.target.pointerType,
        .global name a.target.pointerType] :: post)
    (hreg : a.HoldsAddress (a.target.registers.withWidth reg a.target.pointerBits)) :
    a.Puts out (a.target.registers.root reg) name := by
  have hunfolds := h.unfolds
  rw [hsplit] at hunfolds
  obtain ⟨xs, part, ys, rfl, -, ⟨legal, hexpanded, hemits⟩, hys⟩ := hunfolds.of_middle
  have hview : (f'.placement a.target assigned fun _ => 0).kindOf
      (.physicalReg (a.target.registers.withWidth reg a.target.pointerBits) a.target.pointerType) =
        .physicalReg (a.target.registers.withWidth reg a.target.pointerBits) := rfl
  have hputs := hexpanded.puts h.roots hemits rfl rfl rfl rfl rfl hview hreg
  have hroot : (f'.placement a.target assigned fun _ => 0).root (.physicalReg
      (a.target.registers.withWidth reg a.target.pointerBits)) = a.target.registers.root reg :=
    a.root_withWidth reg _
  have hkeeps : ∀ j ∈ ys, a.Keeps j (a.target.registers.root reg) :=
    h.keeps_of_unfolds (fun _ => 0) hys fun i hi =>
      (hpost i hi).imp fun d hd => ⟨hd.1, hd.2 _⟩
  rw [← hroot] at hkeeps ⊢
  rw [List.append_assoc]
  exact (hputs.append_right hkeeps).append_left xs

/-- **An address that is taken into a new register and moved to an argument register arrives there
exactly if it fits**, whatever runs before. -/
theorem puts_copy_iff (pre : List Instruction) (hsplit : code = front ++ .generic .globalAddress
      [.virtualReg id a.target.pointerType, .global name a.target.pointerType] ::
        (mid ++ move :: post))
    (hparam : id ∉ f.paramIds) (hnew : ¬Occurs (earlier ++ front) id)
    (hmid : ∀ i ∈ mid, ∃ d, i.Sets d ∧ ((∃ w, d.kind = .virtualReg w) ∨
      ∃ reg, d.kind = .physicalReg reg) ∧ d.kind ≠ .virtualReg id)
    (hop : move.opcode = .generic op) (hmoves : op = .mov ∨ op = .movf)
    (hoperands : move.operands = [d, .virtualReg id a.target.pointerType])
    (hdef : move.def? = some d) (hreg : reg ∈ a.target.passing)
    (hd : d.kind = .physicalReg (a.target.registers.withWidth reg d.size)) :
    a.Puts (pre ++ out) (a.target.registers.root reg) name ↔ a.Carries d.size := by
  obtain ⟨home, hhome, hholds⟩ := h.holds front _ id _ hsplit hparam hnew
  have hplace : (f'.placement a.target assigned fun _ => 0).home id = home :=
    Function.home_placement hhome
  have hroot : a.target.registers.root (a.target.registers.withWidth home a.target.pointerBits) =
      home := (a.root_withWidth home _).trans (h.roots id home hhome)
  have hview : (f'.placement a.target assigned fun _ => 0).kindOf
      (.virtualReg id a.target.pointerType) =
        .physicalReg (a.target.registers.withWidth home a.target.pointerBits) := by
    rw [← hplace]
    rfl
  have hunfolds := h.unfolds
  rw [hsplit] at hunfolds
  obtain ⟨xs, taken, rest, rfl, -, ⟨legal, hexpanded, hemits⟩, hrest⟩ := hunfolds.of_middle
  obtain ⟨kept, moved, ys, rfl, hkept, ⟨legal', hexpanded', hemits'⟩, hys⟩ := hrest.of_middle
  have hputs := hexpanded.puts h.roots hemits rfl rfl rfl rfl rfl hview hholds
  have hkeeps := h.keeps_between (fun _ => 0) hkept hsplit hparam
    (List.mem_filterMap.mpr ⟨_, List.mem_cons_self, rfl⟩)
    (List.mem_filterMap.mpr ⟨.virtualReg id a.target.pointerType, by simp [hoperands], rfl⟩) hmid
  have hbehind : ∀ j ∈ ys, a.Keeps j (a.target.registers.root reg) :=
    h.keeps_of_unfolds (fun _ => 0) hys fun i hi =>
      (hpost i hi).imp fun d hd => ⟨hd.1, hd.2 _⟩
  have hself : legal' = [move] := by
    cases hexpanded' with
    | same => rfl
    | address ha hop' =>
      rw [Instruction.generic?, hop] at hop'
      rcases hmoves with rfl | rfl <;> cases hop'
  rw [hself] at hemits'
  obtain ⟨j, rfl, hwrites, hcopies, hloses⟩ := (Unfolds.single_iff.mp hemits').carries h.roots hop
    hmoves hoperands hdef hreg hd rfl hview hholds name
  constructor
  · intro harrives
    by_contra hnot
    have hcut : pre ++ (xs ++ taken ++ (kept ++ [j] ++ ys)) =
        (pre ++ (xs ++ (taken ++ kept))) ++ j :: ys := by simp
    rw [hcut] at harrives
    exact Arch.Puts.not_of_loses hwrites hbehind (hloses hnot) harrives
  · intro hcarries
    have hcopy := hcopies hcarries
    rw [hroot, ← hplace] at hcopy
    have harrives := ((hputs.append_right hkeeps).copy hcopy).append_right hbehind
    simpa using (harrives.append_left xs).append_left pre

end Compiled

namespace Machine.Function

theorem length_returns_legalize (hf : a.target.Produces f) (h : f.legalize a.target = .ok f₁) :
    ∀ i ∈ f₁.instructions, i.isReturn → i.operands.length ≤ 1 := fun i hi hret =>
  (shaped_legalize hf.shaped h i hi).length_ret_le
    ((((untouched_of_produces hf).legalize h).all i hi).returns.mp hret)

/-! ## Between mentions -/

section classed

variable {alloc : Allocation} {id : RegId} {xs ys zs : List Instruction}
  {symbols : String → BitVec a.target.pointerBits}

theorem exists_split_selectClasses (t : Target) (hsplit : f.instructions = xs ++ i :: ys) :
    ∃ xs' i' ys', (f.selectClasses t).instructions = xs' ++ i' :: ys' ∧
      List.Forall₂ Instruction.Recast xs xs' ∧ i.Recast i' ∧
      List.Forall₂ Instruction.Recast ys ys' := by
  have hrecast := forall₂_instructions (recast_selectClasses t f)
  rw [← instructions, ← instructions, hsplit] at hrecast
  obtain ⟨xs', i', ys', hcode, hxs, hi, hys⟩ := exists_cons_of_forall₂_cons hrecast.flip
  exact ⟨xs', i', ys', hcode, hxs.flip, hi, hys.flip⟩

/-- An operand between two mentions of another id is not in its register, once ids have classes and
registers. -/
theorem root_ne_home_of_split
    (h : (f.selectClasses a.target).assignRegisters a.target = .ok (alloc, f'))
    (hreturns : ∀ i ∈ f.instructions, i.isReturn → i.operands.length ≤ 1)
    (hsplit : f.instructions = xs ++ i :: ys) (hparam : id ∉ f.paramIds) (hxs : Occurs xs id)
    (hys : Occurs ys id) (hi : i.isReturn = false) (hd : d ∈ i.operands)
    (hkind : (∃ w, d.kind = .virtualReg w) ∨ ∃ reg, d.kind = .physicalReg reg)
    (hne : d.kind ≠ .virtualReg id) :
    (f'.placement a.target alloc.assigned symbols).root d.kind ≠
      (f'.placement a.target alloc.assigned symbols).home id := by
  obtain ⟨xs', i', ys', hsplit', hxs', hi', hys'⟩ := exists_split_selectClasses a.target hsplit
  obtain ⟨first, last, hoperands⟩ := List.append_of_mem hd
  have hall := hi'.operands
  rw [hoperands] at hall
  obtain ⟨_, d', _, hoperands', -, ⟨hsame, -⟩, -⟩ := exists_cons_of_forall₂_cons hall.flip
  rw [← hsame] at hkind hne ⊢
  exact operand_ne_home_of_between h (Lowering.length_returns_selectClasses a.target hreturns) hparam
    hsplit' ((occurs_recast hxs').mpr hxs) ((occurs_recast hys').mpr hys)
    (hi'.isReturn_eq.trans hi) (by simp [hoperands']) hne hkind

theorem not_isBound_selectClasses {call : Instruction} (hparam : id ∉ f.paramIds)
    (hsplit : f.instructions = xs ++ (ys ++ call :: zs)) (hxs : ¬Occurs xs id) (hys : Occurs ys id)
    (hquiet : ∀ i ∈ ys, i.isReturn = false) (hcall : call.isCall) (hgoes : call.isReturn = false) :
    ¬(f.selectClasses a.target).IsBound a.target id := by
  rw [← List.append_assoc] at hsplit
  obtain ⟨both, call', zs', hsplit', hboth, hcall', -⟩ :=
    exists_split_selectClasses a.target hsplit
  obtain ⟨xs', ys', rfl, hxs', hys'⟩ := exists_append_of_forall₂_append hboth.flip
  rw [List.append_assoc] at hsplit'
  refine not_isBound_of_call hparam hsplit' ((occurs_recast hxs'.flip).not.mpr hxs)
    ((occurs_recast hys'.flip).mpr hys) (not_isReturn_of_recast hys'.flip hquiet) ?_
    (hcall'.isReturn_eq.trans hgoes)
  rw [Instruction.isCall, hcall'.flags]
  exact hcall

/-- The register of an id that nothing mentions until an address goes there, in front of a call. -/
theorem holdsAddress_of_split {first call : Instruction} {os : List Operand}
    (h : (f.selectClasses a.target).assignRegisters a.target = .ok (alloc, f'))
    (hsplit : f.instructions = xs ++ (first :: ys ++ call :: zs)) (hparam : id ∉ f.paramIds)
    (hxs : ¬Occurs xs id) (hload : first.isLoad = false)
    (hoperands : first.operands = .virtualReg id a.target.pointerType :: os)
    (hfloat : first.isFloatPosition 0 (.virtualReg id a.target.pointerType) = false)
    (hquiet : ∀ i ∈ first :: ys, i.isReturn = false) (hcall : call.isCall)
    (hgoes : call.isReturn = false) : ∃ home, alloc.assigned.lookup id = some home ∧
      a.HoldsAddress (a.target.registers.withWidth home a.target.pointerBits) := by
  have hfirst : Occurs (first :: ys) id :=
    ⟨first, List.mem_cons_self, List.mem_filterMap.mpr
      ⟨.virtualReg id a.target.pointerType, by simp [hoperands], rfl⟩⟩
  have hocc : Occurs (f.selectClasses a.target).instructions id := by
    refine (occurs_recast (forall₂_instructions (recast_selectClasses a.target f))).mpr ?_
    rw [← instructions, hsplit]
    exact occurs_append.mpr (.inr (occurs_append.mpr (.inl hfirst)))
  obtain ⟨home, hhome⟩ := exists_lookup h (.inl hocc)
  exact ⟨home, hhome, holdsAddress_of_first h hsplit hparam hxs hload hoperands rfl rfl hfloat
    (not_isBound_selectClasses hparam hsplit hxs hfirst hquiet hcall hgoes) hhome⟩

end classed

/-! ## All passes -/

/-- Code in front of a call that calls nothing is as good as code before. -/
theorem CallsAfter.consume (h : f.CallsAfter a k n callee before code)
    (hcode : ∀ i ∈ code, a.calls i = false) : f.CallsAfter a k n callee (before ++ code) [] := by
  obtain ⟨⟨block, call, behind, hblock, hsplit, hcall⟩, hn⟩ := h
  refine ⟨⟨block, call, behind, hblock, ?_, hcall⟩, ?_⟩
  · rw [hsplit, List.nil_append, List.append_assoc]
  · rw [List.countP_append, countP_eq_zero_of_forall hcode, hn, Nat.add_zero]

/-- Classes, registers and native code, one after another. -/
theorem unfolds_emits {classed placed : List Instruction}
    (hclassed : List.Forall₂ Instruction.Recast code classed)
    (hplaced : List.Forall₂ (fun i j => placeInstruction a.target f' assigned i = .ok j) classed
      placed)
    (hfinal : ∀ j ∈ placed, ∀ o ∈ j.operands, o.isFinal) (hselects : Unfolds a.Selects placed out) :
    Unfolds (a.Emits f' assigned) code out := by
  have hboth : List.Forall₂ (fun i j => ∃ i', i.Recast i' ∧
      placeInstruction a.target f' assigned i' = .ok j) code placed :=
    forall₂_comp (fun _ i' _ hi hj => ⟨i', hi, hj⟩) hclassed hplaced
  have hknown : List.Forall₂ (fun i j => ∃ i', i.Recast i' ∧
      placeInstruction a.target f' assigned i' = .ok j ∧ ∀ o ∈ j.operands, o.isFinal) code placed :=
    forall₂_imp_mem hboth fun _ j hj ⟨i', hi, hplace⟩ => ⟨i', hi, hplace, hfinal j hj⟩
  refine ((Unfolds.of_forall₂ hknown).trans hselects).mono fun i part hpart => ?_
  obtain ⟨_, ⟨j, ⟨i', hi, hplace, hfinal⟩, rfl⟩, hpart⟩ := hpart
  exact ⟨i', j, hi, hplace, hfinal, Unfolds.single_iff.mp hpart⟩

/-- **A call and the code in front of it become a native call and native code in front of it.** -/
theorem CallsAfter.exists_compiled (h : f.CallsAfter a k n callee before code)
    (hcode : ∀ i ∈ code, ∃ d, i.Sets d) (hf : a.target.Produces f)
    (hlegalize : f.legalize a.target = .ok f₁)
    (hallocate : (f₁.selectClasses a.target).allocateRegisters a.target = .ok f₂)
    (hselect : f₂.selectInstructions a.target = .ok f₃)
    (hframes : f₃.insertFrameCode a.target = .ok g) :
    ∃ f' assigned before' out, g.CallsAfter a k n callee before' out ∧
      Compiled a f (f.earlier k before) code f' assigned out := by
  have hfills : ∀ i ∈ code, ∃ fill, i.Fills fill := fun i hi => (hcode i hi).elim fun _ h => h.fills
  obtain ⟨-, before₁, legal, hlegal, hexpanded, hold⟩ := around_legalize h hfills hlegalize
  have hquiet : ∀ j ∈ legal, j.isReturn = false := by
    intro j hj
    obtain ⟨i, hi, part, hpart, hj⟩ := hexpanded.exists_of_mem hj
    obtain ⟨d, hd⟩ := hcode i hi
    exact Instruction.isReturn_eq_of_def? (hpart.sets hd j hj).1
  obtain ⟨before₂, classed, hclassed, -, hrecast⟩ := hlegal.selectClasses
  obtain ⟨⟨alloc, f'⟩, hassign, -⟩ := bind_eq_ok.mp hallocate
  obtain ⟨before₃, placed, hplaced, hplace⟩ :=
    hclassed.allocateRegisters (not_isReturn_of_recast hrecast hquiet) hallocate hassign
  have hall := shaped_legalize hf.shaped hlegalize
  have hallocated := allocated_allocateRegisters hall.selectClasses hallocate
  obtain ⟨before₄, out, hnative, hselects⟩ := hplaced.selectInstructions hallocated hselect
  obtain ⟨_, later₂, -, hinPlaced⟩ := hplaced.exists_call
  have hroots : ∀ id reg, alloc.assigned.lookup id = some reg →
      a.target.registers.root reg = reg := fun _ _ => root_of_assigned a.regular hassign
  have hunfolds : Unfolds (a.Compiles f' alloc.assigned) code out :=
    hexpanded.trans (unfolds_emits hrecast hplace
      (fun j hj => (hallocated j (by simp [hinPlaced, hj])).final) hselects)
  have hquiet' : ∀ j ∈ out, j.isReturn = false := by
    intro j hj
    obtain ⟨i, hi, part, hpart, hj⟩ := hunfolds.exists_of_mem hj
    obtain ⟨d, hd⟩ := hcode i hi
    exact hpart.isReturn_eq hroots hd j hj
  obtain ⟨before₅, hfinal⟩ := hnative.insertFrameCode hquiet' hframes
  have hreturns := length_returns_legalize hf hlegalize
  have hparams : f₁.paramIds = f.paramIds := by rw [paramIds, params_legalize hlegalize, paramIds]
  obtain ⟨call, later, hcall, hlegalCode⟩ := hlegal.exists_call
  refine ⟨f', alloc.assigned, before₅, out, hfinal, hunfolds, hroots, ?_, ?_⟩
  · intro symbols xs i ys d id hsplit hi hkind hne hparam hxs hys
    rw [hsplit] at hexpanded hcode
    obtain ⟨xs₁, part, ys₁, rfl, hxs₁, hpart, hys₁⟩ := hexpanded.of_middle
    obtain ⟨first, rest, rfl⟩ := hpart.exists_cons
    have hdef := (hpart.sets hi first List.mem_cons_self).1
    have hcode' : f₁.instructions = (f₁.earlier k before₁ ++ xs₁) ++
        first :: (rest ++ (ys₁ ++ call :: later)) := by
      rw [hlegalCode]
      simp
    refine root_ne_home_of_split hassign hreturns hcode' (hparams ▸ hparam)
      (occurs_append.mpr (.inr ?_)) (occurs_append.mpr (.inr (occurs_append.mpr (.inl ?_))))
      (Instruction.isReturn_eq_of_def? hdef) (Lowering.mem_operands_of_def? hdef) hkind hne
    · exact (hxs₁.occurs_iff fun i hi => hcode i (by simp [hi])).mpr hxs
    · exact (hys₁.occurs_iff fun i hi => hcode i (by simp [hi])).mpr hys
  · intro xs ys id source hsplit hparam hnew
    have hin : Instruction.generic .globalAddress
        [.virtualReg id a.target.pointerType, source] ∈ f.instructions := by
      obtain ⟨_, _, -, hsame⟩ := h.exists_call
      simp [hsame, hsplit]
    have hlt : id < f.nextId :=
      ((hf.plain _ hin).operands _ List.mem_cons_self).id_lt id rfl
    rw [hsplit] at hexpanded hcode
    obtain ⟨xs₁, part, ys₁, rfl, hxs₁, hpart, -⟩ := hexpanded.of_middle
    obtain ⟨d, hd⟩ := hcode _ (List.mem_append_right xs List.mem_cons_self)
    cases hd.defines
    obtain ⟨first, rest, os, rfl, hload, hoperands, hfloat⟩ := hpart.exists_first hd rfl rfl rfl
    have hcode' : f₁.instructions = (f₁.earlier k before₁ ++ xs₁) ++
        (first :: (rest ++ ys₁) ++ call :: later) := by
      rw [hlegalCode]
      simp
    refine holdsAddress_of_split hassign hcode' (hparams ▸ hparam) ?_ hload hoperands hfloat
      (fun i hi => hquiet i ?_) hcall.isCall hcall.goesOn
    · rw [occurs_append, hxs₁.occurs_iff fun i hi => hcode i (by simp [hi])]
      rw [occurs_append] at hnew
      exact fun hocc => hnew (hocc.imp_left (hold id hlt))
    · rw [List.append_assoc, List.cons_append]
      exact List.mem_append_right xs₁ hi

end Machine.Function

end Retarget
