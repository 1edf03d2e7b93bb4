import Retarget.Proofs.Banks.Allocation
import Retarget.Proofs.Native.Extensions
import Retarget.Proofs.Symbols.Emitted
import Retarget.Proofs.Symbols.Native

/-!
# Moves and addresses in native code

All native code of an instruction writes the register that the instruction defines
(`Arch.Emits.writes`).  Code that takes the address of a symbol puts it there
(`Arch.Expanded.puts`).  A move of an address carries all of it where pointers have 32 bits or its
destination has more than 32 bits, and loses it elsewhere (`Arch.Emits.carries`).
-/

namespace Retarget

open Machine Target

variable {a : Arch} {f : Function} {assigned : List (RegId × RegId)}
  {symbols : String → BitVec a.target.pointerBits} {i j : Instruction} {d d' o o' : Operand}
  {code mid : List Instruction} {root source reg : RegId} {name : String}

/-! ## What is defined -/

namespace Machine

theorem Instruction.def?_of_operands {rest : List Operand} (h : i.def? = some d)
    (hflags : j.flags = i.flags) (hoperands : j.operands = d' :: rest) : j.def? = some d' := by
  have heffect : j.isEffect = false := by
    rw [← isEffect_eq_false_of_def? h, isEffect, isEffect, isStore, isReturn, isJump, isCall, hflags]
    rfl
  rw [def?, hasDef, hoperands, heffect]
  rfl

theorem Instruction.def?_modifyOperand (i : Instruction) (k : Nat) (f : Operand → Operand) :
    (i.modifyOperand (k + 1) f).def? = i.def? := by
  obtain ⟨opcode, operands, flags, relation⟩ := i
  cases operands <;> rfl

theorem Instruction.def?_replaceOperand (i : Instruction) (k : Nat) (o : Operand) :
    (i.replaceOperand (k + 1) o).def? = i.def? := by
  obtain ⟨opcode, operands, flags, relation⟩ := i
  cases operands <;> rfl

end Machine

theorem Arch.writes?_of_def? (h : i.def? = some d) (hd : d.kind = .physicalReg reg) :
    a.writes? i = some (a.target.registers.root reg) := by
  rw [writes?, h, Option.bind_some, Operand.reg?, hd]
  rfl

theorem Arch.def?_touchUp (i : Instruction) : (a.touchUp i).def? = i.def? := by
  cases a with
  | riscv32 => rfl
  | aarch64 =>
    rw [touchUp, AArch64.narrowSource]
    split
    · exact i.def?_modifyOperand 0 _
    · rfl

namespace Target

theorem AArch64.Form.def? {rs : Registers} {site : Site} {op : GenericOp} {r : Replacement}
    (h : Form rs site op r) (hop : op.endures ∨ op = .add) (hd : site.instruction.def? = some d) :
    ∀ j ∈ r.first :: r.rest, j.def? = some d := by
  have hselected : ∀ code, ∀ j ∈ [site.instruction.setOpcode code], j.def? = some d :=
    fun code => List.forall_mem_singleton.mpr hd
  cases h with
  | register | constant | move | load | stackAddress | call => exact hselected _
  | smallConstant =>
    exact List.forall_mem_singleton.mpr ((Instruction.def?_replaceOperand _ 0 _).trans hd)
  | @wideConstant _ dest source constant value _ hdest =>
    have hsame : dest = d := by
      rw [Instruction.operand?, Instruction.operands_of_def? hd] at hdest
      exact (Option.some.inj hdest).symm
    refine List.forall_mem_cons.mpr ⟨(Instruction.def?_replaceOperand _ 0 _).trans hd,
      fun j hj => ?_⟩
    obtain ⟨shift, -, hj⟩ := List.mem_flatMap.mp hj
    rw [moveField] at hj
    split at hj
    · cases hj
    · rw [List.mem_singleton.mp hj, hsame]
      rfl
  | compare hcompare | fused hcompare =>
    rcases hcompare with ⟨rfl, -⟩ | ⟨rfl, -⟩ <;> rcases hop with hop | hop <;> cases hop
  | convert hconvert =>
    rcases hconvert with rfl | rfl | rfl | rfl | rfl <;> rcases hop with hop | hop <;> cases hop
  | _ => rcases hop with hop | hop <;> cases hop

theorem Riscv.Form.def? {site : Site} {op : GenericOp} {r : Replacement}
    (h : Form site op r) (hop : op.endures ∨ op = .add) (hd : site.instruction.def? = some d) :
    ∀ j ∈ r.first :: r.rest, j.def? = some d := by
  have hselected : ∀ code, ∀ j ∈ [site.instruction.setOpcode code], j.def? = some d :=
    fun code => List.forall_mem_singleton.mpr hd
  cases h with
  | register | constant | move | load | stackAddress | call => exact hselected _
  | @globalAddress dest symbol hdest =>
    have hsame : dest = d := by
      rw [Instruction.operand?, Instruction.operands_of_def? hd] at hdest
      exact (Option.some.inj hdest).symm
    subst hsame
    exact List.forall_mem_cons.mpr ⟨rfl, List.forall_mem_singleton.mpr rfl⟩
  | convert hconvert => exact hselected _
  | unsigned hnarrow | mask hnarrow =>
    rcases hnarrow with rfl | rfl <;> rcases hop with hop | hop <;> cases hop
  | _ => rcases hop with hop | hop <;> cases hop

end Target

theorem Arch.Selects.def? (h : a.Selects i code) (hd : i.def? = some d)
    (hi : ∀ op, i.generic? = some op → op.endures ∨ op = .add) :
    ∀ j ∈ code, ∃ d', j.def? = some d' ∧ d'.kind = d.kind := by
  rcases h with ⟨-, rfl⟩ | ⟨site, op, r, rfl, hop, hr, rfl⟩
  · exact List.forall_mem_singleton.mpr ⟨d, (def?_touchUp i).trans hd, rfl⟩
  · rw [List.forall_mem_map]
    intro j hj
    rw [def?_touchUp]
    cases a with
    | riscv32 => exact ⟨d, (Riscv.select_eq_ok hr).def? (hi op hop) hd j hj, rfl⟩
    | aarch64 =>
      obtain ⟨form, hform, rfl⟩ := AArch64.select_eq_ok hr
      have hall := hform.def? (hi op hop) hd
      rcases List.mem_cons.mp hj with rfl | hj
      · have hfirst := hall _ List.mem_cons_self
        have hkinds := Function.map_kind_widenRegisters form.first
        rw [Instruction.operands_of_def? hfirst, List.map_cons] at hkinds
        obtain ⟨d', rest, hoperands, hkind, -⟩ := List.map_eq_cons_iff.mp hkinds
        exact ⟨d', Instruction.def?_of_operands hfirst rfl hoperands, hkind⟩
      · exact ⟨d, hall j (List.mem_cons_of_mem _ hj), rfl⟩

/-! ## Code for one instruction -/

/-- What an operand names once ids have registers: the view of its register that fits its width. -/
def Machine.Placement.kindOf {t : Target} (P : Placement t) (o : Operand) : Operand.Kind :=
  match o.kind with
  | .virtualReg id | .parameter id => .physicalReg (t.registers.withWidth (P.home id) o.size)
  | kind => kind

theorem Machine.Function.kind_placeOperand
    (h : placeOperand a.target f.name assigned o = .ok o') :
    o'.kind = (f.placement a.target assigned symbols).kindOf o ∧ o'.ty = o.ty := by
  obtain ⟨kind, ty, regClass⟩ := o
  cases kind with
  | virtualReg id | parameter id =>
    obtain ⟨reg, hreg, h⟩ := bind_eq_ok.mp h
    cases h
    refine ⟨?_, rfl⟩
    rw [Placement.kindOf]
    dsimp only
    rw [home_placement (orFail_eq_ok.mp hreg)]
    rfl
  | _ =>
    cases h
    exact ⟨rfl, rfl⟩

theorem Machine.Function.head_placeInstruction {rest : List Operand}
    (hoperands : i.operands = d :: rest) (hd : d.isRegLike)
    (h : placeInstruction a.target f assigned i = .ok j) :
    ∃ d' rest', placeOperand a.target f.name assigned d = .ok d' ∧ j.operands = d' :: rest' := by
  obtain ⟨operands, hmap, hcases⟩ := placeInstruction_cases h
  rw [hoperands] at hmap
  obtain ⟨d', rest', hd', hrest, rfl⟩ := List.forall₂_cons_left_iff.mp (forall₂_of_mapM_eq_ok hmap)
  have hplace : d'.isPlace = false := by
    rw [isPlace_placeOperand hd']
    obtain ⟨kind, ty, regClass⟩ := d
    cases kind <;> first | rfl | cases hd
  obtain ⟨-, rfl⟩ | ⟨before, place, after, base, offset, hsplit, -, hisplace, -, rfl⟩ := hcases
  · exact ⟨d', rest', hd', rfl⟩
  · cases before with
    | nil =>
      cases hsplit
      cases hplace.symm.trans hisplace
    | cons first before =>
      cases hsplit
      exact ⟨d', _, hd', rfl⟩

theorem Arch.Emits.exists_def (symbols : String → BitVec a.target.pointerBits)
    (hroots : ∀ id reg, assigned.lookup id = some reg → a.target.registers.root reg = reg)
    (h : a.Emits f assigned i code) (hi : i.def? = some d) (hd : d.isRegLike)
    (hendures : i.Endures) : ∀ j ∈ code, ∃ d' reg, j.def? = some d' ∧ d'.kind = .physicalReg reg ∧
      a.target.registers.root reg = (f.placement a.target assigned symbols).root d.kind := by
  obtain ⟨classed, placed, hrecast, hplaced, -, hselects⟩ := h
  have hall := hrecast.operands
  rw [Instruction.operands_of_def? hi] at hall
  obtain ⟨d₁, rest, ⟨hkind, hty⟩, -, hoperands⟩ := List.forall₂_cons_left_iff.mp hall
  have hd₁ : d₁.isRegLike := by rwa [Operand.isRegLike, hkind]
  obtain ⟨d₂, rest', hd₂, hoperands'⟩ := Function.head_placeInstruction hoperands hd₁ hplaced
  obtain ⟨reg, hreg, -, hroot⟩ := Function.placeOperand_register symbols hroots hd₁ hd₂
  have hdef : placed.def? = some d₂ := Instruction.def?_of_operands hi
    ((Function.flags_placeInstruction hplaced).trans hrecast.flags) hoperands'
  have hopcode : placed.opcode = i.opcode :=
    (Function.opcode_placeInstruction hplaced).trans hrecast.opcode
  intro j hj
  obtain ⟨d', hdef', hkind'⟩ := hselects.def? hdef (fun op hop => by
    rw [Instruction.generic?, hopcode] at hop
    exact (hendures op hop).imp_right And.left) j hj
  exact ⟨d', reg, hdef', hkind'.trans hreg, by rw [hroot, hkind]⟩

/-- **All native code of an instruction writes what the instruction defines.** -/
theorem Arch.Emits.writes (symbols : String → BitVec a.target.pointerBits)
    (hroots : ∀ id reg, assigned.lookup id = some reg → a.target.registers.root reg = reg)
    (h : a.Emits f assigned i code) (hi : i.def? = some d) (hd : d.isRegLike)
    (hendures : i.Endures) : ∀ j ∈ code,
      a.writes? j = some ((f.placement a.target assigned symbols).root d.kind) := by
  intro j hj
  obtain ⟨d', reg, hdef, hreg, hroot⟩ := h.exists_def symbols hroots hi hd hendures j hj
  rw [Arch.writes?_of_def? hdef hreg, hroot]

theorem Arch.Emits.not_calls (h : a.Emits f assigned i code) (hi : a.calls i = false) :
    ∀ j ∈ code, a.calls j = false := by
  obtain ⟨classed, placed, hrecast, hplaced, hfinal, hselects⟩ := h
  refine hselects.not_calls hfinal ?_
  rw [Arch.calls_congr (Function.opcode_placeInstruction hplaced), Arch.calls_congr hrecast.opcode]
  exact hi

theorem Arch.Emits.cases (symbols : String → BitVec a.target.pointerBits)
    (h : a.Emits f assigned i code) (hplace : ∀ o ∈ i.operands, o.isPlace = false) :
    ∃ placed, placed.opcode = i.opcode ∧
      placed.operands.map (·.kind) = i.operands.map (f.placement a.target assigned symbols).kindOf ∧
      a.Selects placed code := by
  obtain ⟨classed, placed, hrecast, hplaced, -, hselects⟩ := h
  have hsame : ∀ {os os' : List Operand},
      List.Forall₂ (fun o o' : Operand => o'.kind = o.kind ∧ o'.ty = o.ty) os os' →
      os'.map (·.isPlace) = os.map (·.isPlace) ∧
      os'.map (f.placement a.target assigned symbols).kindOf =
        os.map (f.placement a.target assigned symbols).kindOf := by
    intro os os' hos
    induction hos with
    | nil => exact ⟨rfl, rfl⟩
    | @cons o o' os os' hfirst _ ih =>
      obtain ⟨hkind, hty⟩ := hfirst
      have hplace : o'.isPlace = o.isPlace := by
        rw [Operand.isPlace, Operand.isMemory, Operand.isStack, hkind]
        rfl
      have hview : (f.placement a.target assigned symbols).kindOf o' =
          (f.placement a.target assigned symbols).kindOf o := by
        rw [Placement.kindOf, Placement.kindOf, hkind, Operand.size, Operand.size, hty]
      exact ⟨by rw [List.map_cons, List.map_cons, hplace, ih.1],
        by rw [List.map_cons, List.map_cons, hview, ih.2]⟩
  obtain ⟨hlayout, hkinds⟩ := hsame hrecast.operands
  have hnone : true ∉ classed.layout := by
    rw [Instruction.layout, hlayout, List.mem_map]
    rintro ⟨o, ho, hplaced⟩
    cases hplaced.symm.trans (hplace o ho)
  refine ⟨placed, (Function.opcode_placeInstruction hplaced).trans hrecast.opcode, ?_, hselects⟩
  rw [← hkinds, ← List.forall₂_eq_eq_eq, List.forall₂_map_left_iff, List.forall₂_map_right_iff]
  exact (Function.operands_placeInstruction hnone hplaced).flip.imp fun _ _ h =>
    (Function.kind_placeOperand h).1

/-! ## Addresses -/

/-- The register holds all of an address. -/
def Arch.HoldsAddress : Arch → RegId → Prop
  | .aarch64, reg => AArch64.IsGeneralPurpose reg ∧ AArch64.widthOf reg = 64
  | .riscv32, reg => reg ≠ Riscv.zero

theorem Arch.eq_root_of_writes? {rest : List Operand.Kind} (h : a.writes? i = some root)
    (hkinds : i.operands.map (·.kind) = .physicalReg reg :: rest) :
    root = a.target.registers.root reg := by
  obtain ⟨written, hwritten, rfl⟩ := Option.map_eq_some_iff.mp h
  obtain ⟨d, hd, hreg⟩ := Option.bind_eq_some_iff.mp hwritten
  rw [Instruction.operands_of_def? hd] at hkinds
  have hkind : d.kind = .physicalReg reg := (List.cons.inj hkinds).1
  rw [Operand.reg?, hkind] at hreg
  rw [Option.some.inj hreg]

theorem Target.Site.kind_of_operand {site : Site} {k : Nat} {kinds : List Operand.Kind}
    (h : site.operand k = .ok o) (hkinds : site.instruction.operands.map (·.kind) = kinds) :
    kinds[k]? = some o.kind := by
  rw [← hkinds, List.getElem?_map, ← Instruction.operand?, orFail_eq_ok.mp h]
  rfl

/-- An instruction that is native already is only touched up. -/
theorem Arch.Selects.eq_of_isSelected (h : a.Selects i code) (hi : i.isSelected) :
    code = [a.touchUp i] := by
  rcases h with ⟨-, h⟩ | ⟨site, op, r, rfl, hop, -⟩
  · exact h
  · rw [Instruction.isSelected, Instruction.generic?_eq_some hop] at hi
    cases hi

theorem Arch.Selects.exists_select {op : GenericOp} (h : a.Selects i code)
    (hop : i.opcode = .generic op) : ∃ (site : Site) (r : Replacement), site.instruction = i ∧
      a.target.select site op = .ok r ∧ code = (r.first :: r.rest).map a.touchUp := by
  rcases h with ⟨hselected, -⟩ | ⟨site, op', r, hsite, hop', hr, hcode⟩
  · rw [Instruction.isSelected, hop] at hselected
    cases hselected
  · cases hop.symm.trans (Instruction.generic?_eq_some hop')
    exact ⟨site, r, hsite, hr, hcode⟩

namespace Target.AArch64

variable {symbols : String → BitVec Arch.aarch64.target.pointerBits} {ty : LowType}
  (hd : (f.placement Arch.aarch64.target assigned symbols).kindOf d = .physicalReg reg)
  (hplace : d.isPlace = false)
include hd hplace

theorem exists_adrp
    (h : Arch.aarch64.Emits f assigned (Op.adrp.on [d, .global name ty]).markExpanded code) :
    ∃ j, code = [j] ∧ nativeOp? j = some .adrp ∧
      j.operands.map (·.kind) = [.physicalReg reg, .global name] := by
  obtain ⟨placed, hopcode, hkinds, hselects⟩ := h.cases symbols
    (List.forall_mem_cons.mpr ⟨hplace, List.forall_mem_singleton.mpr rfl⟩)
  have hopcode : placed.opcode = Op.adrp.opcode := hopcode
  have hcode := hselects.eq_of_isSelected (by
    rw [Instruction.isSelected, hopcode]
    rfl)
  have hself : Arch.aarch64.touchUp placed = placed := by
    apply narrowSource_eq_self <;> rw [hopcode] <;> decide
  rw [hself] at hcode
  refine ⟨placed, hcode, nativeOp?_eq _ hopcode, hkinds.trans ?_⟩
  rw [← hd]
  rfl

theorem exists_add (h : Arch.aarch64.Emits f assigned
      (Instruction.generic .add [d, d, .global name ty]).markExpanded code) :
    ∃ j, code = [j] ∧ nativeOp? j = some .addI ∧
      j.operands.map (·.kind) = [.physicalReg reg, .physicalReg reg, .global name] := by
  obtain ⟨placed, hopcode, hkinds, hselects⟩ := h.cases symbols
    (List.forall_mem_cons.mpr ⟨hplace, List.forall_mem_cons.mpr ⟨hplace,
      List.forall_mem_singleton.mpr rfl⟩⟩)
  have hkinds : placed.operands.map (·.kind) =
      [.physicalReg reg, .physicalReg reg, .global name] := by
    rw [hkinds, ← hd]
    rfl
  obtain ⟨site, r, rfl, hr, rfl⟩ := hselects.exists_select hopcode
  obtain ⟨form, hform, hr⟩ := bind_eq_ok.mp hr
  cases hr
  obtain ⟨forms, hforms, hform⟩ := bind_eq_ok.mp hform
  cases orFail_eq_ok.mp hforms
  obtain ⟨second, hsecond, hform⟩ := bind_eq_ok.mp hform
  have hglobal : second.kind = .global name :=
    (Option.some.inj (site.kind_of_operand hsecond hkinds)).symm
  rw [if_neg (by simp [Operand.isPhysical, hglobal]), if_pos (by simp [Operand.isGlobal, hglobal])]
    at hform
  cases hform
  have hself : Arch.aarch64.touchUp (widenRegisters (site.instruction.setOpcode Op.addI.opcode)) =
      widenRegisters (site.instruction.setOpcode Op.addI.opcode) := by
    apply narrowSource_eq_self <;> exact Opcode.native.inj.mt (by decide)
  refine ⟨_, congrArg (fun j => [j]) hself, nativeOp?_eq .addI rfl,
    (Function.map_kind_widenRegisters _).trans hkinds⟩

end Target.AArch64

/-- **The address of a symbol is put into the register where it is taken.** -/
theorem Arch.Expanded.puts
    (hroots : ∀ id reg, assigned.lookup id = some reg → a.target.registers.root reg = reg)
    (h : a.Expanded i mid) (hemits : Unfolds (a.Emits f assigned) mid code)
    (hop : i.generic? = some .globalAddress) (hoperands : i.operands = [d, o])
    (hdef : i.def? = some d) (hd : d.isRegLike) (ho : o.kind = .global name)
    (hview : (f.placement a.target assigned symbols).kindOf d = .physicalReg reg)
    (hreg : a.HoldsAddress reg) :
    a.Puts code ((f.placement a.target assigned symbols).root d.kind) name := by
  have hplace : d.isPlace = false := by
    obtain ⟨kind, ty, regClass⟩ := d
    cases kind <;> first | rfl | cases hd
  have hplaces : ∀ o ∈ i.operands, o.isPlace = false := by
    rw [hoperands]
    refine List.forall_mem_cons.mpr ⟨hplace, List.forall_mem_singleton.mpr ?_⟩
    rw [Operand.isPlace, Operand.isMemory, Operand.isStack, ho]
    rfl
  have hendures := h.endures (.intro hop hoperands hd (.globalAddress ho))
  cases a with
  | aarch64 =>
    cases h with
    | same =>
      -- there is no code for the address as a whole
      obtain ⟨placed, hopcode, -, hselects⟩ :=
        (Unfolds.single_iff.mp hemits).cases symbols hplaces
      obtain ⟨site, r, -, hr, -⟩ :=
        hselects.exists_select (hopcode.trans (Instruction.generic?_eq_some hop))
      cases hr
    | address ha hop' hoperands' hname =>
      cases hoperands.symm.trans hoperands'
      rw [Operand.symbol?, ho] at hname
      cases hname
      obtain ⟨first, rest, rfl, hfirst, hrest⟩ :=
        Unfolds.of_append (show Unfolds _ ([_] ++ [_]) code from hemits)
      have hfirst := Unfolds.single_iff.mp hfirst
      have hrest := Unfolds.single_iff.mp hrest
      obtain ⟨page, rfl, hpageOp, hpageKinds⟩ := AArch64.exists_adrp hview hplace hfirst
      obtain ⟨sum, rfl, hsumOp, hsumKinds⟩ := AArch64.exists_add hview hplace hrest
      have hpage := hfirst.writes symbols hroots rfl hd (hendures _ (by simp)) page
        List.mem_cons_self
      have hsum := hrest.writes symbols hroots rfl hd (hendures _ (by simp)) sum
        List.mem_cons_self
      have hroot := eq_root_of_writes? hpage hpageKinds
      rw [hroot] at hpage hsum ⊢
      exact Puts.pair hpage hsum
        (fun _ _ => AArch64.computes?_adrp hpageOp hpageKinds hreg)
        (fun _ _ => AArch64.computes?_add hsumOp hsumKinds hreg hreg) AArch64.page_add_pageOffset
  | riscv32 =>
    cases h with
    | address ha => cases ha
    | same =>
      have hemits := Unfolds.single_iff.mp hemits
      obtain ⟨placed, hopcode, hkinds, hselects⟩ := hemits.cases symbols hplaces
      obtain ⟨site, r, rfl, hr, rfl⟩ :=
        hselects.exists_select (hopcode.trans (Instruction.generic?_eq_some hop))
      obtain ⟨dest, hdest, hr⟩ := bind_eq_ok.mp hr
      obtain ⟨symbol, hsymbol, hr⟩ := bind_eq_ok.mp hr
      split at hr
      · cases hr
        have hkinds : dest.kind = .physicalReg reg ∧ symbol.kind = .global name := by
          rw [hoperands, List.map_cons, List.map_singleton, hview, Placement.kindOf, ho] at hkinds
          exact ⟨(Option.some.inj (site.kind_of_operand hdest hkinds)).symm,
            (Option.some.inj (site.kind_of_operand hsymbol hkinds)).symm⟩
        have hwrites := hemits.writes symbols hroots hdef hd (hendures _ (by simp))
        have hupper := hwrites _ List.mem_cons_self
        have hlower := hwrites _ (List.mem_cons_of_mem _ List.mem_cons_self)
        have hupperKinds : (Riscv.Op.luiHi.on [dest, symbol]).operands.map (·.kind) =
            [.physicalReg reg, .global name] := by
          rw [← hkinds.1, ← hkinds.2]
          rfl
        have hlowerKinds : (Riscv.Op.addiLo.on [dest, dest, symbol]).operands.map (·.kind) =
            [.physicalReg reg, .physicalReg reg, .global name] := by
          rw [← hkinds.1, ← hkinds.2]
          rfl
        have hroot := (eq_root_of_writes? hupper hupperKinds).trans (Riscv.root_eq reg)
        rw [hroot] at hupper hlower ⊢
        exact Puts.pair hupper hlower
          (fun _ _ => Riscv.computes?_lui (Riscv.nativeOp?_eq .luiHi rfl) hupperKinds hreg)
          (fun _ _ => Riscv.computes?_addi (Riscv.nativeOp?_eq .addiLo rfl) hlowerKinds hreg hreg)
          Riscv.upper_add_lower
      · cases hr

/-! ## Moves -/

namespace Target.AArch64

variable {rd rs : RegId} {op : GenericOp}

theorem IsGeneralPurpose.isFloat_eq_false (h : IsGeneralPurpose reg) :
    registers.isFloat reg = false :=
  (by decide +kernel : ∀ reg < s 0, registers.isFloat reg = false) reg h

theorem widthOf_withWidth_floatArguments (h : reg ∈ convention.floatArguments) (bits : Nat) :
    widthOf (registers.withWidth reg bits) = registerWidth bits := by
  have hfamilies : ∀ reg ∈ convention.floatArguments, ∃ n < 8,
      (registers.get? (registers.root reg)).map (fun top => (top.id, top.bits, top.views)) =
        some (AArch64.d n, 64, [s n]) ∧
      (registers.get? (s n)).map (fun view => (view.id, view.bits)) = some (s n, 32) := by
    decide +kernel
  have hwidths : ∀ n < 8, widthOf (s n) = 32 ∧ widthOf (AArch64.d n) = 64 := by decide +kernel
  obtain ⟨n, hn, hfamily, hnarrow⟩ := hfamilies reg h
  obtain ⟨top, htop, hfamily⟩ := Option.map_eq_some_iff.mp hfamily
  obtain ⟨view, hview, hnarrow⟩ := Option.map_eq_some_iff.mp hnarrow
  obtain ⟨hid, hfamily⟩ := Prod.mk.inj hfamily
  obtain ⟨hbits, hviews⟩ := Prod.mk.inj hfamily
  obtain ⟨hviewId, hviewBits⟩ := Prod.mk.inj hnarrow
  have hviews' : top.views.filterMap registers.get? = [view] := by
    rw [hviews, List.filterMap_cons_some hview, List.filterMap_nil]
  rw [withWidth_of_view htop hviews' hbits hviewBits, hviewId, hid, registerWidth]
  split_ifs
  exacts [(hwidths n hn).1, (hwidths n hn).2]

theorem exists_move {symbols : String → BitVec Arch.aarch64.target.pointerBits}
    (h : Arch.aarch64.Emits f assigned i code) (hop : i.opcode = .generic op)
    (hmoves : op = .mov ∨ op = .movf) (hoperands : i.operands = [d, o])
    (hplaces : ∀ o ∈ i.operands, o.isPlace = false)
    (hd : (f.placement Arch.aarch64.target assigned symbols).kindOf d = .physicalReg rd)
    (ho : (f.placement Arch.aarch64.target assigned symbols).kindOf o = .physicalReg rs)
    (hrs : IsGeneralPurpose rs) :
    ∃ j, code = [j] ∧
      (IsGeneralPurpose rd → nativeOp? j = some .movR ∧ j.operands.map (·.kind) =
        [.physicalReg rd, .physicalReg (if widthOf rd = 32 then registers.withWidth rs 32 else rs)]) ∧
      (registers.isFloat rd → nativeOp? j = some .fmov ∧ j.operands.map (·.kind) =
        [.physicalReg rd, .physicalReg rs]) := by
  obtain ⟨placed, hopcode, hkinds, hselects⟩ := h.cases symbols hplaces
  rw [hoperands, List.map_cons, List.map_singleton, hd, ho] at hkinds
  obtain ⟨site, r, rfl, hr, rfl⟩ := hselects.exists_select (hopcode.trans hop)
  obtain ⟨form, hform, hr⟩ := bind_eq_ok.mp hr
  cases hr
  have hform : selectMove registers site = .ok form := by
    rcases hmoves with rfl | rfl <;> exact hform
  obtain ⟨second, hsecond, hform⟩ := bind_eq_ok.mp hform
  have hsecondKind : second.kind = .physicalReg rs :=
    (Option.some.inj (site.kind_of_operand hsecond hkinds)).symm
  rw [if_neg (by simp [Operand.isImmediate, hsecondKind])] at hform
  obtain ⟨dest, hdest, hform⟩ := bind_eq_ok.mp hform
  have hdestKind : dest.kind = .physicalReg rd :=
    (Option.some.inj (site.kind_of_operand hdest hkinds)).symm
  have hselected : (isFloatReg registers dest || isFloatReg registers second) =
      registers.isFloat rd := by
    rw [isFloatReg, isFloatReg, Operand.reg?, Operand.reg?, hdestKind, hsecondKind, Option.any_some,
      Option.any_some, hrs.isFloat_eq_false, Bool.or_false]
  dsimp only at hform
  rw [hselected] at hform
  cases hform
  refine ⟨_, rfl, fun hrd => ?_, fun hrd => ?_⟩
  · rw [hrd.isFloat_eq_false]
    obtain ⟨hopcode', hkinds'⟩ := map_kind_narrowSource (.inl rfl)
      ((Function.map_kind_widenRegisters (site.instruction.setOpcode Op.movR.opcode)).trans hkinds)
      hrd hrs
    exact ⟨nativeOp?_eq .movR hopcode', hkinds'⟩
  · rw [hrd]
    have hself : Arch.aarch64.touchUp
        (widenRegisters (site.instruction.setOpcode Op.fmov.opcode)) =
          widenRegisters (site.instruction.setOpcode Op.fmov.opcode) := by
      apply narrowSource_eq_self <;> exact Opcode.native.inj.mt (by decide)
    have hopcode' : (Arch.aarch64.touchUp
        (widenRegisters (site.instruction.setOpcode Op.fmov.opcode))).opcode = Op.fmov.opcode := by
      rw [hself]
      rfl
    exact ⟨nativeOp?_eq .fmov hopcode',
      by rw [if_pos rfl, hself]; exact (Function.map_kind_widenRegisters _).trans hkinds⟩

end Target.AArch64

theorem Target.Riscv.exists_move {symbols : String → BitVec Arch.riscv32.target.pointerBits}
    {rd rs : RegId} {op : GenericOp}
    (h : Arch.riscv32.Emits f assigned i code) (hop : i.opcode = .generic op)
    (hmoves : op = .mov ∨ op = .movf) (hoperands : i.operands = [d, o])
    (hplaces : ∀ o ∈ i.operands, o.isPlace = false)
    (hd : (f.placement Arch.riscv32.target assigned symbols).kindOf d = .physicalReg rd)
    (ho : (f.placement Arch.riscv32.target assigned symbols).kindOf o = .physicalReg rs) :
    ∃ j, code = [j] ∧ nativeOp? j = some .mv ∧
      j.operands.map (·.kind) = [.physicalReg rd, .physicalReg rs] := by
  obtain ⟨placed, hopcode, hkinds, hselects⟩ := h.cases symbols hplaces
  rw [hoperands, List.map_cons, List.map_singleton, hd, ho] at hkinds
  obtain ⟨site, r, rfl, hr, rfl⟩ := hselects.exists_select (hopcode.trans hop)
  -- there are no moves of floating-point numbers
  obtain rfl : op = .mov := by
    rcases hmoves with rfl | rfl
    · rfl
    · cases hr
  obtain ⟨second, hsecond, hr⟩ := bind_eq_ok.mp hr
  have hsecondKind : second.kind = .physicalReg rs :=
    (Option.some.inj (site.kind_of_operand hsecond hkinds)).symm
  rw [if_neg (by simp [Operand.isImmediate, hsecondKind])] at hr
  cases hr
  exact ⟨_, rfl, nativeOp?_eq .mv rfl, hkinds⟩

/-- All of an address fits: pointers have 32 bits, or there is room for more than that. -/
def Arch.Carries (a : Arch) (bits : Nat) : Prop := a = .riscv32 ∨ 32 < bits

namespace Target.AArch64

variable {rs : RegId} {bits : Nat} (hrs : IsGeneralPurpose rs ∧ widthOf rs = 64)
include hrs

omit hrs in
theorem setWidth_ne (half : BitVec 32) : half.setWidth 64 ≠ (0x100000000 : BitVec 64) := by
  intro h
  have hlt := half.isLt
  have hvalue := congrArg BitVec.toNat h
  have hpower : (0x100000000 : BitVec 64).toNat = 2 ^ 32 := rfl
  rw [BitVec.toNat_setWidth, hpower] at hvalue
  omega

theorem carries_move (hroot : IsGeneralPurpose root) (hop : nativeOp? j = some .movR)
    (hkinds : j.operands.map (·.kind) = [.physicalReg (registers.withWidth root bits),
      .physicalReg (if widthOf (registers.withWidth root bits) = 32 then registers.withWidth rs 32
        else rs)])
    (hwrites : Arch.aarch64.writes? j = some (registers.root root)) (name : String) :
    (Arch.aarch64.Carries bits →
      Arch.aarch64.Copies j (registers.root rs) (registers.root root)) ∧
    (¬Arch.aarch64.Carries bits → ∃ symbols, ∀ σ : Arch.aarch64.Words,
      Arch.aarch64.computes? symbols j σ ≠ some (symbols name)) := by
  rw [hroot.widthOf_withWidth, registerWidth] at hkinds
  refine ⟨fun hcarries => ⟨hwrites, fun symbols σ => ?_⟩, fun hnarrow => ?_⟩
  · have hwide : ¬bits ≤ 32 := Nat.not_le.mpr (hcarries.resolve_left (by decide))
    rw [if_neg hwide, if_neg (by decide)] at hkinds
    have hwidth : widthOf (registers.withWidth root bits) = widthOf rs := by
      rw [hroot.widthOf_withWidth, registerWidth, if_neg hwide, hrs.2]
    refine (computes?_move hop hkinds (hroot.withWidth bits) hrs.1 hwidth).trans ?_
    rw [hrs.2, BitVec.setWidth_eq]
    exact congrArg some (BitVec.setWidth_eq _)
  · -- of a large address only the lower half arrives
    have hnarrow : bits ≤ 32 := Nat.le_of_not_lt fun h => hnarrow (.inr h)
    rw [if_pos hnarrow, if_pos rfl] at hkinds
    have hwidth : widthOf (registers.withWidth rs 32) = 32 := hrs.1.widthOf_withWidth 32
    refine ⟨fun _ => 0x100000000, fun σ h => ?_⟩
    have hcomputes := (computes?_move hop hkinds (hroot.withWidth bits) (hrs.1.withWidth 32) (by
      rw [hroot.widthOf_withWidth, registerWidth, if_pos hnarrow, hwidth])).symm.trans h
    rw [hwidth] at hcomputes
    exact setWidth_ne _ (Option.some.inj hcomputes)

theorem carries_fmov (hroot : root ∈ convention.floatArguments)
    (hrd : registers.isFloat (registers.withWidth root bits)) (hop : nativeOp? j = some .fmov)
    (hkinds : j.operands.map (·.kind) =
      [.physicalReg (registers.withWidth root bits), .physicalReg rs])
    (hwrites : Arch.aarch64.writes? j = some (registers.root root)) (name : String) :
    (Arch.aarch64.Carries bits →
      Arch.aarch64.Copies j (registers.root rs) (registers.root root)) ∧
    (¬Arch.aarch64.Carries bits → ∃ symbols, ∀ σ : Arch.aarch64.Words,
      Arch.aarch64.computes? symbols j σ ≠ some (symbols name)) := by
  have hcomputes : ∀ symbols σ, Arch.aarch64.computes? symbols j σ =
      if registerWidth bits = 64 then some (σ (registers.root rs)) else none := by
    intro symbols σ
    rw [← widthOf_withWidth_floatArguments hroot]
    exact computes?_fmov hop hkinds hrd hrs
  refine ⟨fun hcarries => ⟨hwrites, fun symbols σ => ?_⟩, fun hnarrow => ⟨fun _ => 0, fun σ => ?_⟩⟩
  · rw [hcomputes, registerWidth, if_neg (Nat.not_le.mpr (hcarries.resolve_left (by decide))),
      if_pos rfl]
  · rw [hcomputes, registerWidth, if_pos (Nat.le_of_not_lt fun h => hnarrow (.inr h))]
    exact (Option.some_ne_none _).symm

end Target.AArch64

section Moves

variable {op : GenericOp} {rs : RegId}
  (hroots : ∀ id reg, assigned.lookup id = some reg → a.target.registers.root reg = reg)
  (h : a.Emits f assigned i code) (hop : i.opcode = .generic op) (hmoves : op = .mov ∨ op = .movf)
  (hoperands : i.operands = [d, o]) (hdef : i.def? = some d)
  (hroot : root ∈ a.target.passing)
  (hd : d.kind = .physicalReg (a.target.registers.withWidth root d.size))
  (hisReg : o.isRegLike)
  (ho : (f.placement a.target assigned symbols).kindOf o = .physicalReg rs) (hrs : a.HoldsAddress rs)
include hroots h hop hmoves hoperands hdef hroot hd hisReg ho hrs

/-- **A move of an address into an argument register** carries all of it if it fits, and loses it
otherwise. -/
theorem Arch.Emits.carries (name : String) : ∃ j, code = [j] ∧
    a.writes? j = some (a.target.registers.root root) ∧
    (a.Carries d.size → a.Copies j (a.target.registers.root rs) (a.target.registers.root root)) ∧
    (¬a.Carries d.size → ∃ symbols, ∀ σ : a.Words,
      a.computes? symbols j σ ≠ some (symbols name)) := by
  have hkindOf : (f.placement a.target assigned symbols).kindOf d = .physicalReg
      (a.target.registers.withWidth root d.size) := by
    rw [Placement.kindOf, hd]
  have hplaces : ∀ o ∈ i.operands, o.isPlace = false := by
    rw [hoperands]
    refine List.forall_mem_cons.mpr ⟨?_, List.forall_mem_singleton.mpr ?_⟩
    · rw [Operand.isPlace, Operand.isMemory, Operand.isStack, hd]
      rfl
    · obtain ⟨kind, ty, regClass⟩ := o
      cases kind <;> first | rfl | cases hisReg
  have hendures : i.Endures := fun op' hop' => by
    rw [Instruction.generic?, hop] at hop'
    cases hop'
    rcases hmoves with rfl | rfl <;> exact .inl rfl
  have hwrites := h.writes symbols hroots hdef (by rw [Operand.isRegLike, hd]) hendures
  rw [hd, Placement.root, a.root_withWidth] at hwrites
  cases a with
  | riscv32 =>
    obtain ⟨j, rfl, hnative, hkinds⟩ :=
      Riscv.exists_move h hop hmoves hoperands hplaces hkindOf ho
    refine ⟨j, rfl, hwrites j List.mem_cons_self, fun _ => ⟨hwrites j List.mem_cons_self,
      fun symbols σ => ?_⟩, fun h => absurd (.inl rfl) h⟩
    have hne : ∀ reg ∈ Arch.riscv32.target.passing, reg ≠ Riscv.zero := by decide +kernel
    have hself : Arch.riscv32.target.registers.withWidth root d.size = root :=
      Riscv.withWidth_eq root d.size
    have hsource : Arch.riscv32.target.registers.root rs = rs := Riscv.root_eq rs
    rw [hself] at hkinds
    rw [hsource]
    exact Riscv.computes?_move hnative hkinds (hne root hroot) hrs
  | aarch64 =>
    obtain ⟨j, rfl, hgeneral, hfloat⟩ :=
      AArch64.exists_move h hop hmoves hoperands hplaces hkindOf ho hrs.1
    have hwrite := hwrites j List.mem_cons_self
    refine ⟨j, rfl, hwrite, ?_⟩
    have hfiles : ∀ reg ∈ Arch.aarch64.target.passing,
        AArch64.IsGeneralPurpose reg ∨ reg ∈ AArch64.convention.floatArguments := by
      decide +kernel
    rcases hfiles root hroot with hreg | hreg
    · obtain ⟨hnative, hkinds⟩ := hgeneral (hreg.withWidth d.size)
      exact AArch64.carries_move hrs hreg hnative hkinds hwrite name
    · have hisFloat : ∀ reg ∈ AArch64.convention.floatArguments, AArch64.registers.isFloat reg := by
        decide +kernel
      have hrd : AArch64.registers.isFloat (AArch64.registers.withWidth root d.size) :=
        (AArch64.isFloat_withWidth root d.size).trans (hisFloat root hreg)
      obtain ⟨hnative, hkinds⟩ := hfloat hrd
      exact AArch64.carries_fmov hrs hreg hrd hnative hkinds hwrite name

end Moves

end Retarget
