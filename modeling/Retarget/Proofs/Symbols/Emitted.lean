import Retarget.Proofs.Convention.Saved
import Retarget.Proofs.Encoding.Constants
import Retarget.Proofs.Symbols.Expanded

/-!
# Calls from legal code to native code

Behind legalization each instruction is compiled for itself: it gets classes and registers, is
selected and touched up (`Arch.Emits`).  Moves before returns and frame code come in between, but
never between a call and the code in front of it.  So a call of legal code is one call of native
code, behind as many others of its block, and in front of it stands the native code of what stood
there (`exists_emitted`).
-/

namespace Retarget

open Machine Target

section lists

variable {α β : Type} {R : α → β → Prop} {as : List α} {bs : List β}

namespace Unfolds

variable {R : α → List β → Prop}

theorem countP_eq {p : α → Bool} {q : β → Bool} (h : Unfolds R as bs)
    (hR : ∀ a ∈ as, ∀ part, R a part → part.countP q = [a].countP p) :
    bs.countP q = as.countP p := by
  induction h with
  | nil => rfl
  | @cons a part bs as hfirst _ ih =>
    obtain ⟨ha, has⟩ := List.forall_mem_cons.mp hR
    rw [List.countP_append, ih has, ha part hfirst, ← List.countP_append]
    rfl

theorem of_range {new : Nat → List β} (h : ∀ k a, as[k]? = some a → R a (new k)) :
    Unfolds R as ((List.range as.length).flatMap new) := by
  induction as generalizing new with
  | nil => exact .nil
  | cons a as ih =>
    rw [List.length_cons, List.range_succ_eq_map, List.flatMap_cons, List.flatMap_map]
    exact .cons (h 0 a rfl) (ih fun k => h (k + 1))

end Unfolds

end lists

/-! ## Instructions -/

def Arch.touchUp : Arch → Instruction → Instruction
  | .aarch64 => AArch64.narrowSource AArch64.registers
  | .riscv32 => id

/-- The code may be what selection makes of an allocated instruction. -/
def Arch.Selects (a : Arch) (i : Instruction) (code : List Instruction) : Prop :=
  i.isSelected ∧ code = [a.touchUp i] ∨ ∃ (site : Site) (op : GenericOp) (r : Replacement),
    site.instruction = i ∧ i.generic? = some op ∧ a.target.select site op = .ok r ∧
      code = (r.first :: r.rest).map a.touchUp

/-- The code may be what an instruction of legal code becomes, where ids have the registers that
they are assigned. -/
def Arch.Emits (a : Arch) (f : Function) (assigned : List (RegId × RegId)) (i : Instruction)
    (code : List Instruction) : Prop :=
  ∃ classed placed, i.Recast classed ∧
    Function.placeInstruction a.target f assigned classed = .ok placed ∧
    (∀ o ∈ placed.operands, o.isFinal) ∧ a.Selects placed code

variable {a : Arch} {f g h : Function} {k n : Nat} {i j : Instruction}
  {before code new : List Instruction} {callee : String} {alloc : Allocation}
  {assigned : List (RegId × RegId)}

theorem Arch.calls_congr (h : j.opcode = i.opcode) : a.calls j = a.calls i := by
  rw [Arch.calls, Arch.calls, h]

theorem Arch.calls_touchUp (i : Instruction) : a.calls (a.touchUp i) = a.calls i := by
  cases a with
  | riscv32 => rfl
  | aarch64 =>
    refine calls_congr ?_
    rw [touchUp, AArch64.narrowSource]
    split <;> rfl

theorem Arch.touchUp_of_calls (h : a.calls i) : a.touchUp i = i := by
  cases a with
  | riscv32 => rfl
  | aarch64 =>
    rw [touchUp, AArch64.narrowSource, if_neg]
    intro hmove
    rw [Bool.and_eq_true, Bool.or_eq_true, beq_iff_eq, beq_iff_eq] at hmove
    rcases hmove.1 with hop | hop
    · cases h.symm.trans (calls_of_nativeFlags? (AArch64.Op.movR.nativeFlags? hop))
    · cases h.symm.trans (calls_of_nativeFlags? (AArch64.Op.andI.nativeFlags? hop))

theorem Machine.Instruction.Calls.selects (hi : i.Calls a callee) (h : a.Selects i new) :
    ∃ j, new = [j] ∧ j.Calls a callee := by
  rcases h with ⟨-, rfl⟩ | ⟨site, op, r, rfl, hop, hr, rfl⟩
  · rw [Arch.touchUp_of_calls hi.calls]
    exact ⟨i, rfl, hi⟩
  · have hcall : op = .call := by
      have hflag := hi.calls
      rw [Instruction.calls_eq hop] at hflag
      cases op <;> first | rfl | cases hflag
    subst hcall
    suffices hfirst : r.first.Calls a callee ∧ r.rest = [] by
      rw [hfirst.2, List.map_singleton, Arch.touchUp_of_calls hfirst.1.calls]
      exact ⟨_, rfl, hfirst.1⟩
    cases a with
    | aarch64 =>
      cases hr
      exact ⟨⟨rfl, (Function.map_kind_widenRegisters _).trans hi.operands, hi.isCall, hi.goesOn⟩, rfl⟩
    | riscv32 =>
      cases hr
      exact ⟨⟨rfl, hi.operands, hi.isCall, hi.goesOn⟩, rfl⟩

theorem Arch.Selects.not_calls (h : a.Selects i new) (hfinal : ∀ o ∈ i.operands, o.isFinal)
    (hi : a.calls i = false) : ∀ j ∈ new, a.calls j = false := by
  rcases h with ⟨-, rfl⟩ | ⟨site, op, r, rfl, hop, hr, rfl⟩
  · rw [List.forall_mem_singleton, calls_touchUp]
    exact hi
  · rw [List.forall_mem_map]
    intro j hj
    rw [calls_touchUp, ← Bool.not_eq_true]
    intro hcall
    cases ((from_select hop hfinal hr j hj).calls hcall).symm.trans hi

theorem Arch.Selects.countP_calls (h : a.Selects i new) (hfinal : ∀ o ∈ i.operands, o.isFinal) :
    new.countP a.calls = [i].countP a.calls := by
  cases hcalls : a.calls i with
  | false =>
    rw [countP_eq_zero_of_forall (h.not_calls hfinal hcalls), List.countP_singleton, hcalls]
    rfl
  | true =>
    rcases h with ⟨-, rfl⟩ | ⟨site, op, r, rfl, hop, hr, rfl⟩
    · rw [List.countP_singleton, List.countP_singleton, calls_touchUp]
    · have hcall : op = .call := by
        rw [Instruction.calls_eq hop] at hcalls
        cases op <;> first | rfl | cases hcalls
      subst hcall
      cases a <;>
        (cases hr
         rw [List.map_singleton, List.countP_singleton, List.countP_singleton, calls_touchUp, hcalls]
         rfl)

namespace Machine.Function

/-! ## Classes and registers -/

theorem CallsAfter.selectClasses (h : f.CallsAfter a k n callee before code) :
    ∃ before' code', (f.selectClasses a.target).CallsAfter a k n callee before' code' ∧
      List.Forall₂ Instruction.Recast (f.earlier k before)
        ((f.selectClasses a.target).earlier k before') ∧
      List.Forall₂ Instruction.Recast code code' := by
  obtain ⟨⟨block, call, behind, hblock, hcode, hcall⟩, hn⟩ := h
  have hclasses := recast_selectClasses a.target f
  obtain ⟨block', hblock', hrecast⟩ := exists_getElem?_of_forall₂ hclasses hblock
  rw [hcode] at hrecast
  obtain ⟨before', rest, hsplit, hbefore, hrest⟩ := exists_append_of_forall₂_append hrecast.flip
  obtain ⟨code', call', behind', rfl, hcode', hcall', -⟩ := exists_cons_of_forall₂_cons hrest
  refine ⟨before', code', ⟨⟨block', call', behind', hblock', hsplit, ?_, ?_, ?_, ?_⟩, ?_⟩,
    List.rel_append (forall₂_instructions (List.forall₂_take k hclasses)) hbefore.flip, hcode'.flip⟩
  · rw [Arch.calls_congr hcall'.opcode]
    exact hcall.calls
  · have hkinds : List.Forall₂ (fun o o' : Operand => o'.kind = o.kind) call.operands
        call'.operands := hcall'.operands.imp fun _ _ h => h.1
    rw [← hcall.operands, ← List.forall₂_eq_eq_eq, List.forall₂_map_left_iff,
      List.forall₂_map_right_iff]
    exact hkinds.flip
  · rw [Instruction.isCall, hcall'.flags]
    exact hcall.isCall
  · rw [hcall'.isReturn_eq]
    exact hcall.goesOn
  · rw [← hn]
    exact countP_eq_of_forall₂ hbefore.flip fun _ _ h => Arch.calls_congr h.opcode

theorem Plan.countP_calls (t : Target) (plan : List (Instruction × Option RegId)) :
    (Plan.code t plan).countP a.calls = (plan.map (·.1)).countP a.calls :=
  countP_code t (by rintro op dest value (rfl | rfl) <;> rfl) (fun _ _ => rfl) plan

theorem calls_placeInstruction (hi : i.Calls a callee)
    (h : placeInstruction a.target f assigned i = .ok j) : j.Calls a callee := by
  obtain ⟨o, ho, hkind⟩ := List.map_eq_singleton_iff.mp hi.operands
  have hplaced := operands_placeInstruction (by simp [Instruction.layout, ho, Operand.isPlace,
    Operand.isMemory, Operand.isStack, hkind]) h
  rw [ho] at hplaced
  refine ⟨?_, ?_, ?_, ?_⟩
  · rw [Arch.calls_congr (opcode_placeInstruction h)]
    exact hi.calls
  · obtain ⟨o', rest, hsame, hnil, hj⟩ := List.forall₂_cons_left_iff.mp hplaced
    cases hnil
    rw [placeOperand, hkind] at hsame
    cases hsame
    rw [hj, List.map_singleton, hkind]
  · rw [Instruction.isCall, flags_placeInstruction h]
    exact hi.isCall
  · rw [Instruction.isReturn, flags_placeInstruction h]
    exact hi.goesOn

theorem CallsAfter.allocateRegisters {f' : Function} (h : f.CallsAfter a k n callee before code)
    (hquiet : ∀ i ∈ code, i.isReturn = false) (halloc : f.allocateRegisters a.target = .ok g)
    (hassign : f.assignRegisters a.target = .ok (alloc, f')) :
    ∃ before' code', g.CallsAfter a k n callee before' code' ∧
      List.Forall₂ (fun i j => placeInstruction a.target f' alloc.assigned i = .ok j) code
        code' := by
  obtain ⟨⟨block, call, behind, hblock, hcode, hcall⟩, hn⟩ := h
  obtain ⟨alloc', f'', hassign', hblocks⟩ := forall₂_allocateRegisters halloc
  cases hassign.symm.trans hassign'
  obtain ⟨block', hblock', plan, hmovable, hfst, hplaced⟩ :=
    exists_getElem?_of_forall₂ hblocks hblock
  rw [hcode] at hfst
  -- the plan for the code before the call, for the code in front of it, and for the call
  obtain ⟨first, rest, rfl, rfl, hrest⟩ := List.map_eq_append_iff.mp hfst
  obtain ⟨middle, last, rfl, rfl, hlast⟩ := List.map_eq_append_iff.mp hrest
  obtain ⟨⟨i, home⟩, tail, rfl, rfl, -⟩ := List.map_eq_cons_iff.mp hlast
  have hhome : home = none := by
    cases home with
    | none => rfl
    | some home =>
      obtain ⟨id, ty, hret⟩ := hmovable i home (by simp)
      cases hcall.goesOn.symm.trans (returned?_eq_some hret).1
  have hmiddle : Plan.code a.target middle = middle.map (·.1) :=
    Plan.code_eq_of_not_isReturn (fun i reg hmem => hmovable i reg (by simp [hmem])) hquiet
  have hplan : Plan.code a.target (first ++ (middle ++ (i, home) :: tail)) =
      Plan.code a.target first ++ (middle.map (·.1) ++ i :: Plan.code a.target tail) := by
    rw [← hmiddle, hhome]
    simp only [Plan.code, List.flatMap_append, List.flatMap_cons]
    rfl
  rw [hplan] at hplaced
  obtain ⟨before', rest', hsplit, hbefore, hrest'⟩ := exists_append_of_forall₂_append hplaced.flip
  obtain ⟨code', call', behind', rfl, hcode', hcall', -⟩ := exists_cons_of_forall₂_cons hrest'
  refine ⟨before', code', ⟨⟨block', call', behind', hblock', hsplit,
    calls_placeInstruction hcall hcall'⟩, ?_⟩, hcode'.flip⟩
  rw [← hn, ← Plan.countP_calls a.target first]
  exact countP_eq_of_forall₂ hbefore.flip fun _ _ h => Arch.calls_congr (opcode_placeInstruction h)

/-! ## Native code -/

theorem blocks_fixUp (f : Function) : (a.target.fixUp f).blocks =
    f.blocks.map fun b => { b with instructions := b.instructions.map a.touchUp } := by
  cases a with
  | aarch64 => rfl
  | riscv32 =>
    refine (List.map_id'' (fun b => ?_) f.blocks).symm
    rw [Arch.touchUp, List.map_id]

theorem exists_selected (hselect : f.selectInstructions a.target = .ok g) {block : Block}
    (hblock : f.blocks[k]? = some block) :
    ∃ block', g.blocks[k]? = some block' ∧
      Unfolds a.Selects block.instructions block'.instructions := by
  rw [selectInstructions_eq hselect, blocks_fixUp, rewrite]
  dsimp only
  rw [List.getElem?_map, List.getElem?_mapIdx, hblock]
  refine ⟨_, rfl, ?_⟩
  dsimp only
  rw [List.map_flatMap]
  refine .of_range fun m i hi => ?_
  have hbecame := became hselect (Option.bind_eq_some_iff.mpr ⟨block, hblock, hi⟩)
  rcases hbecame with ⟨hselected, hnew⟩ | ⟨op, r, hop, hr, hnew⟩
  · rw [hnew]
    exact .inl ⟨hselected, rfl⟩
  · rw [hnew]
    exact .inr ⟨_, op, r, rfl, hop, hr, rfl⟩

theorem CallsAfter.selectInstructions (h : f.CallsAfter a k n callee before code)
    (hf : f.All (·.Allocated a.target)) (hselect : f.selectInstructions a.target = .ok g) :
    ∃ before' code', g.CallsAfter a k n callee before' code' ∧ Unfolds a.Selects code code' := by
  obtain ⟨⟨block, call, behind, hblock, hcode, hcall⟩, hn⟩ := h
  obtain ⟨block', hblock', hunfolds⟩ := exists_selected hselect hblock
  rw [hcode] at hunfolds
  obtain ⟨before', rest, hsplit, hbefore, hrest⟩ := hunfolds.of_append
  obtain ⟨code', part, behind', rfl, hcode', hpart, -⟩ := hrest.of_middle
  obtain ⟨call', rfl, hcall'⟩ := hcall.selects hpart
  refine ⟨before', code', ⟨⟨block', call', behind', hblock', by simpa using hsplit, hcall'⟩, ?_⟩,
    hcode'⟩
  rw [← hn]
  refine hbefore.countP_eq fun i hi part hpart => hpart.countP_calls ?_
  exact (hf i (mem_instructions.mpr ⟨block, List.mem_of_getElem? hblock, by simp [hcode, hi]⟩)).final

/-! ## Frame code -/

theorem not_calls_of_enacts {e : StackEffect} (h : a.Enacts i e)
    (he : e ≠ .none ∧ e ≠ .move none) : a.calls i = false := by
  by_contra hcalls
  have hrole := Arch.role_of_calls (eq_true_of_ne_false hcalls)
  cases e with
  | none => exact he.1 rfl
  | store reg n => cases h.role_eq.symm.trans hrole
  | load reg n => cases h.role_eq.symm.trans hrole
  | move distance =>
    have heffect : a.stackEffect i = .move distance := h
    rw [← heffect, Arch.stackEffect] at he
    simp only [hrole] at he
    split at he
    · exact he.1 rfl
    · split at he
      · exact he.2 rfl
      · exact he.1 rfl

theorem countP_eq_zero_of_enacts {js : List Instruction} {es : List StackEffect}
    (h : List.Forall₂ a.Enacts js es) (hes : ∀ e ∈ es, e ≠ .none ∧ e ≠ .move none) :
    js.countP a.calls = 0 := by
  refine countP_eq_zero_of_forall fun j hj => ?_
  obtain ⟨before, after, rfl⟩ := List.append_of_mem hj
  obtain ⟨_, e, _, rfl, -, he, -⟩ := exists_cons_of_forall₂_cons h.flip
  exact not_calls_of_enacts he (hes e (by simp))

/-- What is put in before a return, or at the start of the block, is not put in between a call and the
code in front of it. -/
theorem exists_before_of_splice {block : Block} {call : Instruction} {behind js : List Instruction}
    {m : Nat} (hcode : block.instructions = before ++ (code ++ call :: behind))
    (hcall : call.isReturn = false) (hquiet : ∀ i ∈ code, i.isReturn = false)
    (hjs : js.countP a.calls = 0) (hm : m = 0 ∨ block.returnIndex? = some m) :
    ∃ before' behind', (block.splice m 0 js).instructions = before' ++ (code ++ call :: behind') ∧
      before'.countP a.calls = before.countP a.calls := by
  rcases Nat.lt_or_ge before.length m with hlt | hle
  · -- a return behind `before` is behind the call
    obtain ⟨r, hr⟩ : ∃ r, m = (before ++ (code ++ [call])).length + r := by
      refine Nat.exists_eq_add_of_le (Nat.le_of_not_lt fun hin => ?_)
      have hindex := hm.resolve_left (Nat.ne_of_gt (Nat.zero_lt_of_lt hlt))
      have hret := List.of_findIdx?_eq_some hindex
      have hget : block.instructions[m]? = (code ++ [call])[m - before.length]? := by
        rw [List.length_append] at hin
        rw [hcode, List.getElem?_append_right (Nat.le_of_lt hlt), ← List.singleton_append,
          ← List.append_assoc, List.getElem?_append_left (by omega)]
      rw [hget] at hret
      cases hat : (code ++ [call])[m - before.length]? with
      | none => simp [hat] at hret
      | some i =>
        rw [hat] at hret
        rcases List.mem_append.mp (List.mem_of_getElem? hat) with hi | hi
        · cases hret.symm.trans (hquiet i hi)
        · cases List.mem_singleton.mp hi
          cases hret.symm.trans hcall
    refine ⟨before, behind.take r ++ js ++ behind.drop r, ?_, rfl⟩
    have hsplit : before ++ (code ++ call :: behind) = (before ++ (code ++ [call])) ++ behind := by
      simp
    rw [Block.splice, hcode, hsplit, hr, Nat.add_zero, List.take_length_add_append,
      List.drop_length_add_append]
    simp
  · refine ⟨before.take m ++ js ++ before.drop m, behind, ?_, ?_⟩
    · rw [Block.splice, hcode, Nat.add_zero, List.take_append_of_le_length hle,
        List.drop_append_of_le_length hle]
      simp
    · rw [List.countP_append, List.countP_append, hjs, Nat.add_zero, ← List.countP_append,
        List.take_append_drop]

theorem CallsAfter.insertFrameCode (h : f.CallsAfter a k n callee before code)
    (hquiet : ∀ i ∈ code, i.isReturn = false) (hframes : f.insertFrameCode a.target = .ok g) :
    ∃ before', g.CallsAfter a k n callee before' code := by
  rcases insertFrameCode_cases hframes with ⟨rfl, -⟩ |
    ⟨bytes, size, entry, leave, f₂, -, -, -, -, hentry, hleave, hreturns, hinsert⟩
  · exact ⟨before, h⟩
  obtain ⟨⟨block, call, behind, hblock, hcode, hcall⟩, hn⟩ := h
  have hnodup : (f.returns.reverse.map (·.1)).Nodup := by
    rw [List.map_reverse, List.nodup_reverse]
    exact f.nodup_returns
  obtain ⟨-, hlength, hreceives⟩ := insertAll_eq_ok hleave hnodup hreturns
  obtain ⟨js, hjs, rfl⟩ := insertSelected_eq_ok hentry hinsert
  -- before the first return of the block
  obtain ⟨mid, before₁, behind₁, hmid, hcode₁, hn₁⟩ : ∃ mid before₁ behind₁,
      f₂.blocks[k]? = some mid ∧ mid.instructions = before₁ ++ (code ++ call :: behind₁) ∧
        before₁.countP a.calls = n := by
    have hk : k < f₂.blocks.length := hlength ▸ (List.getElem?_eq_some_iff.mp hblock).1
    have hmid := List.getElem?_eq_getElem hk
    obtain ⟨old, hold, hreceived⟩ := hreceives k _ hmid
    cases hblock.symm.trans hold
    rcases hreceived with ⟨-, hsame⟩ | ⟨m, js', hmem, hjs', hsame⟩
    · exact ⟨_, before, behind, hmid, hsame ▸ hcode, hn⟩
    · obtain ⟨old, hold', hindex⟩ := mem_returns.mp (List.mem_reverse.mp hmem)
      cases hblock.symm.trans hold'
      obtain ⟨before', behind', hsplit, hcount⟩ := exists_before_of_splice hcode hcall.goesOn hquiet
        (countP_eq_zero_of_enacts hjs' StackView.known_of_mem_leaveEffects) (.inr hindex)
      exact ⟨_, before', behind', hmid, hsame ▸ hsplit, hcount.trans hn⟩
  -- at the entry
  have hget := getElem?_modifyBlock f₂ 0 k fun block => block.splice 0 0 js
  rw [hmid, Option.map_some] at hget
  by_cases hk : 0 = k
  · obtain ⟨before', behind', hsplit, hcount⟩ := exists_before_of_splice hcode₁ hcall.goesOn hquiet
      (countP_eq_zero_of_enacts hjs StackView.known_of_mem_enterEffects) (.inl rfl)
    rw [if_pos hk] at hget
    exact ⟨before', ⟨_, call, behind', hget, hsplit, hcall⟩, hcount.trans hn₁⟩
  · rw [if_neg hk] at hget
    exact ⟨before₁, ⟨mid, call, behind₁, hget, hcode₁, hcall⟩, hn₁⟩

end Machine.Function

end Retarget
