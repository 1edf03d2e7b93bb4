import Retarget.Legalization
import Retarget.Proofs.Shape.Templates

/-!
# Legalization keeps shapes

An illegal instruction is expanded only if its operation has an expansion, and every expansion finds
the operands it asks for.  So an expansion of shaped code leads to shaped code over the same frame
(`AArch64.expands`, `Riscv.expands`), and so does the whole pass (`yields_legalize`).
-/

namespace Retarget.Machine

variable {t : Target} {slots : List Slot} {f : Function} {b k : Nat} {i : Instruction}

/-- The function is shaped over a frame with the given slots. -/
structure Function.ShapedOver (t : Target) (slots : List Slot) (f : Function) : Prop where
  slots_eq : f.slots = slots
  all : f.All (·.Shaped t slots)

/-- The expansion of an illegal instruction of a shaped function leads to a shaped function. -/
def Function.Expands (t : Target) : Prop :=
  ∀ (slots : List Slot) (f : Function) (b k : Nat) (i : Instruction), f.ShapedOver t slots →
    f.instruction? b k = some i → t.isLegal f b k = false → t.isExpandable i →
    Yields (Function.ShapedOver t slots) (t.expand f b k)

namespace Instruction

theorem operand?_of_secondImmediate? {v : Int} (h : i.secondImmediate? = some v) :
    (i.operand? 2).any (·.isImmediate) := by
  obtain ⟨o, ho, hv⟩ := Option.bind_eq_some_iff.mp h
  rw [ho, Option.any_some]
  exact Operand.isImmediate_iff.mpr ⟨v, hv⟩

theorem shaped_loadImmediate {dest imm : Operand} (hdest : dest.isPlace = false)
    (himm : imm.isPlace = false) : (Target.loadImmediate dest imm).Shaped t slots :=
  Shaped.markExpanded (shaped_plain (by simp [GenericOp.layouts]) (by simp [hdest, himm])
    (by decide))

end Instruction

namespace Function

namespace ShapedOver

theorem fresh (h : f.ShapedOver t slots) : Yields (fun r => r.2.ShapedOver t slots) f.fresh := by
  refine (yields_fresh f).mono fun r hr => ⟨?_, ?_⟩
  · rw [← h.slots_eq, Function.slots, hr.2, Function.slots]
  · intro i hi
    rw [instructions, hr.1] at hi
    exact h.all i hi

theorem replaceAt (h : f.ShapedOver t slots) {new : List Instruction}
    (hnew : ∀ i ∈ new, i.Shaped t slots) : (f.replaceAt b k new).ShapedOver t slots :=
  ⟨h.slots_eq, h.all.replaceAt hnew⟩

theorem shaped (h : f.ShapedOver t slots) (hi : f.instruction? b k = some i) :
    i.Shaped t slots :=
  h.all i (mem_of_instruction? hi)

end ShapedOver

end Function

end Retarget.Machine

namespace Retarget.Target

open Machine (Function Instruction Operand GenericOp Slot)

variable {t : Target} {slots : List Slot} {f : Function} {b k : Nat} {i : Instruction}

/-! ## Shared expansions -/

section Shared

variable (hf : f.ShapedOver t slots) (hi : f.instruction? b k = some i)
include hf hi

/-- An immediate operand is found, and the register that takes its place is no place either. -/
theorem yields_materialize {n : Nat} (himm : (i.operand? n).any (·.isImmediate)) :
    Yields (Function.ShapedOver t slots) (materialize f b k n) := by
  rw [Option.any_eq_true] at himm
  obtain ⟨o, ho, himm⟩ := himm
  have hfilter : (i.operand? n).filter (·.isImmediate) = some o := by simp [ho, himm]
  rw [materialize, Function.instructionAt_eq hi, ok_bind, hfilter]
  refine hf.fresh.bind fun r hr => .pure (hr.replaceAt ?_)
  simp only [List.mem_cons, List.not_mem_nil, or_false, forall_eq_or_imp, forall_eq]
  refine ⟨Instruction.shaped_loadImmediate rfl (Operand.isPlace_of_isImmediate himm), ?_⟩
  exact (hf.shaped hi).replaceOperand ho (Operand.traits_of_isImmediate himm).symm

theorem yields_expandRemainder (hop : i.generic? = some .mod ∨ i.generic? = some .modu) :
    Yields (Function.ShapedOver t slots) (expandRemainder f b k) := by
  have hlayout : i.layout = [false, false, false] := by
    rcases hop with hop | hop <;>
      simpa [GenericOp.layouts] using
        (hf.shaped hi).layout_mem (Instruction.generic?_eq_some hop)
  obtain ⟨dest, lhs, rhs, hops, hdest, hlhs, hrhs⟩ := Instruction.operands_of_layout₃ hlayout
  rw [expandRemainder, Function.instructionAt_eq hi, ok_bind]
  rcases hop with hop | hop
  all_goals
    rw [hop, hops]
    refine hf.fresh.bind fun q hq => hq.fresh.bind fun p hp => .pure (hp.replaceAt ?_)
    simp only [List.mem_cons, List.not_mem_nil, or_false, forall_eq_or_imp, forall_eq]
    refine ⟨.markExpanded (Instruction.shaped_plain ?_ ?_ ?_),
      .markExpanded (Instruction.shaped_plain ?_ ?_ ?_),
      .markExpanded (Instruction.shaped_plain ?_ ?_ ?_)⟩
    all_goals simp [GenericOp.layouts, hdest, hlhs, hrhs]

theorem yields_expandStoreImmediate (himm : i.operands.any (·.isImmediate)) :
    Yields (Function.ShapedOver t slots) (expandStoreImmediate f b k) := by
  rw [expandStoreImmediate, Function.instructionAt_eq hi, ok_bind]
  cases hfind : i.operands.findIdx? (·.isImmediate) with
  | none =>
    rw [List.findIdx?_eq_none_iff] at hfind
    obtain ⟨o, ho, himm⟩ := List.any_eq_true.mp himm
    simp [hfind o ho] at himm
  | some n =>
    obtain ⟨hn, himm, -⟩ := List.findIdx?_eq_some_iff_getElem.mp hfind
    exact yields_materialize hf hi (by simp [Instruction.operand?, hn, himm])

omit hf hi in
theorem yields_foldConversion (op : GenericOp) (value : Int) (source dest : Nat) :
    Yields (fun _ => True) (foldConversion op value source dest) := by
  have hmask : ∀ bits, Yields (fun _ => True) (maskTo bits value) := by
    intro bits
    rw [maskTo]
    split
    · exact .ok trivial
    · split
      · exact .error rfl
      · exact .ok trivial
  cases op with
  | zext => exact hmask source
  | trunc => exact hmask dest
  | _ => exact .ok trivial

theorem yields_expandConstantConversion (h : i.isConstantConversion) :
    Yields (Function.ShapedOver t slots) (expandConstantConversion f b k) := by
  rw [Instruction.isConstantConversion, Bool.and_eq_true, Option.any_eq_true,
    Option.any_eq_true] at h
  obtain ⟨⟨op, hop, hconversion⟩, source, hsource, himm⟩ := h
  have hlayout : i.layout = [false, false] := by
    have hlayout := (hf.shaped hi).layout_mem (Instruction.generic?_eq_some hop)
    cases op <;> simp [GenericOp.isWidthConversion] at hconversion
    all_goals simpa [GenericOp.layouts] using hlayout
  obtain ⟨dest, source', hops, hdest, -⟩ := Instruction.operands_of_layout₂ hlayout
  obtain rfl : source' = source := by simpa [Instruction.operand?, hops] using hsource
  obtain ⟨value, hvalue⟩ := Operand.isImmediate_iff.mp himm
  rw [expandConstantConversion, Function.instructionAt_eq hi, ok_bind, hop, hops]
  dsimp only
  rw [hvalue]
  refine (yields_foldConversion op value _ _).bind fun folded _ => .pure (hf.replaceAt ?_)
  simpa using Instruction.shaped_loadImmediate hdest rfl

theorem yields_expandConstants {rest : Result Function}
    (hrest : i.hasImmediateFirstSource = false → i.isConstantConversion = false →
      Yields (Function.ShapedOver t slots) rest) :
    Yields (Function.ShapedOver t slots) (if i.hasImmediateFirstSource then materialize f b k 1
      else if i.isConstantConversion then expandConstantConversion f b k else rest) := by
  split
  · next hfirst =>
    rw [Instruction.hasImmediateFirstSource, Bool.and_eq_true] at hfirst
    exact yields_materialize hf hi hfirst.2
  · next hfirst =>
    split
    · next hconversion => exact yields_expandConstantConversion hf hi hconversion
    · next hconversion => exact hrest (by simpa using hfirst) (by simpa using hconversion)

end Shared

/-! ## AArch64 -/

namespace AArch64

variable (hf : f.ShapedOver aarch64 slots) (hi : f.instruction? b k = some i)
include hf hi

theorem yields_expandGlobalAddress (hop : i.generic? = some .globalAddress) :
    Yields (Function.ShapedOver aarch64 slots) (expandGlobalAddress f b k i) := by
  have hshaped := hf.shaped hi
  have hlayout : i.layout = [false, false] := by
    simpa [GenericOp.layouts] using hshaped.layout_mem (Instruction.generic?_eq_some hop)
  obtain ⟨dest, source, hops, hdest, hsource⟩ := Instruction.operands_of_layout₂ hlayout
  have hglobal : source.isGlobal := by
    have := hshaped.symbol (Instruction.isGeneric_iff.mpr (Instruction.generic?_eq_some hop))
    simpa [Instruction.operand?, hops] using this
  obtain ⟨symbol, hsymbol⟩ : ∃ symbol, source.symbol? = some symbol := by
    rw [Operand.isGlobal] at hglobal
    rw [Operand.symbol?]
    split at hglobal
    · next heq => exact ⟨_, by rw [heq]⟩
    · cases hglobal
  rw [expandGlobalAddress, hops]
  dsimp only
  rw [hsymbol]
  refine .ok (hf.replaceAt ?_)
  simp only [List.mem_cons, List.not_mem_nil, or_false, forall_eq_or_imp, forall_eq]
  refine ⟨.markExpanded (Instruction.shaped_native rfl (Op.adrp.fits rfl rfl) ?_),
    .markExpanded (Instruction.shaped_plain ?_ ?_ ?_)⟩
  · simp [Op.on, Instruction.native, Instruction.make, hdest]
  all_goals simp [GenericOp.layouts, hdest]

theorem yields_foldZextIntoLoad (hop : i.generic? = some .zext) (h : isFoldableZext f b k) :
    Yields (Function.ShapedOver aarch64 slots) (foldZextIntoLoad f b k i) := by
  rw [isFoldableZext, hi] at h
  rw [foldZextIntoLoad]
  split
  · next hk => simp [hk] at h
  · next hk =>
    rw [if_neg hk] at h
    cases hprev : f.instruction? b (k - 1) with
    | none => exact .error rfl
    | some load =>
      rw [hprev] at h
      simp only [Bool.and_eq_true] at h
      have hload := hf.shaped hprev
      have hform : load.layout = [false, true] := by
        simpa [GenericOp.layouts] using hload.layout_mem (Instruction.isGeneric_iff.mp h.1)
      have hzext : i.layout = [false, false] := by
        simpa [GenericOp.layouts] using (hf.shaped hi).layout_mem (Instruction.generic?_eq_some hop)
      obtain ⟨loaded, place, hops, -, hplace⟩ := Instruction.operands_of_layout₂ hform
      obtain ⟨dest, source, hzops, hdest, -⟩ := Instruction.operands_of_layout₂ hzext
      rw [hzops]
      dsimp only
      rw [hops]
      refine .ok ⟨hf.slots_eq, hf.all.spliceBlock ?_⟩
      rw [List.forall_mem_singleton]
      have hin : place.IsPlaceIn slots := ⟨hplace, hload.inFrame place (by simp [hops])⟩
      refine .markExpanded (Instruction.shaped_of_generic rfl ?_ ?_ ?_ ?_)
      · simp [GenericOp.layouts, Instruction.layout, Instruction.withOperands, hdest, hplace]
      · simp [Instruction.withOperands, hdest, hin]
      · exact fun h => by cases h
      · exact fun h => by cases h

theorem yields_expandAddSub {op flipped : GenericOp} (hop : i.opcode = .generic op)
    (hlayouts : flipped.layouts = op.layouts) (hflipped : flipped ≠ .globalAddress ∧ flipped ≠ .cmp)
    (himm : (i.operand? 2).any (·.isImmediate)) :
    Yields (Function.ShapedOver aarch64 slots) (expandAddSub f b k i flipped) := by
  rw [expandAddSub]
  split
  · next negated _ =>
    rw [Option.any_eq_true] at himm
    obtain ⟨o, ho, himm⟩ := himm
    refine .ok (hf.replaceAt ?_)
    rw [List.forall_mem_singleton, Instruction.modifyOperand_eq
      (i := i.setOpcode (.generic flipped)) ho]
    refine ((hf.shaped hi).setOpcode hop hlayouts hflipped).replaceOperand ho ?_
    exact (Operand.traits_of_isImmediate himm).symm
  · exact yields_materialize hf hi himm

omit hf in
/-- Apart from the operations with expansions of their own, only the second constant can be
illegal. -/
theorem isImmediate_of_isLegal {op : GenericOp} (hop : i.generic? = some op)
    (hlegal : isLegal f b k = false) (hfirst : i.hasImmediateFirstSource = false)
    (hconversion : i.isConstantConversion = false)
    (hother : op ∉ [.mod, .modu, .globalAddress, .store, .zext]) :
    (i.operand? 2).any (·.isImmediate) := by
  simp only [isLegal, hi, hop, hfirst, hconversion, Bool.or_self, Bool.false_eq_true,
    if_false] at hlegal
  cases hsecond : i.secondImmediate? with
  | some v => exact Instruction.operand?_of_secondImmediate? hsecond
  | none =>
    rw [hsecond] at hlegal
    cases op <;> simp at hlegal hother

theorem yields_expand (hlegal : isLegal f b k = false) :
    Yields (Function.ShapedOver aarch64 slots) (expand f b k) := by
  rw [expand, hi]
  refine yields_expandConstants hf hi fun hfirst hconversion => ?_
  cases hop : i.generic? with
  | none => simp [isLegal, hi, hop] at hlegal
  | some op =>
    have hcode := Instruction.generic?_eq_some hop
    have himm := isImmediate_of_isLegal hi hop hlegal hfirst hconversion
    cases op with
    | mod => exact yields_expandRemainder hf hi (.inl hop)
    | modu => exact yields_expandRemainder hf hi (.inr hop)
    | globalAddress => exact yields_expandGlobalAddress hf hi hop
    | store =>
      refine yields_expandStoreImmediate hf hi ?_
      simpa only [isLegal, hi, hop, hfirst, hconversion, Bool.or_self, Bool.false_eq_true,
        if_false, Bool.not_eq_false'] using hlegal
    | zext =>
      refine yields_foldZextIntoLoad hf hi hop ?_
      simpa only [isLegal, hi, hop, hfirst, hconversion, Bool.or_self, Bool.false_eq_true,
        if_false, Bool.not_eq_false'] using hlegal
    | add => exact yields_expandAddSub hf hi hcode rfl (by decide) (himm (by decide))
    | sub => exact yields_expandAddSub hf hi hcode rfl (by decide) (himm (by decide))
    | _ => exact yields_materialize hf hi (himm (by decide))

end AArch64

theorem AArch64.expands : Function.Expands aarch64 :=
  fun _ _ _ _ _ hf hi hlegal _ => yields_expand hf hi hlegal

/-! ## RV32 -/

namespace Riscv

variable (hf : f.ShapedOver riscv32 slots) (hi : f.instruction? b k = some i)
include hf hi

omit hf hi in
theorem shaped_compare {relation : Machine.Relation} {d x y : Operand} (hd : d.isPlace = false)
    (hx : x.isPlace = false) (hy : y.isPlace = false) :
    (compare relation d x y).Shaped t slots := by
  have hcode : ((Instruction.generic .cmp [d, x, y]).withRelation relation).opcode =
      .generic .cmp := rfl
  refine .markExpanded (Instruction.shaped_of_generic hcode ?_ ?_ ?_ ?_)
  · simp [GenericOp.layouts, Instruction.layout, Instruction.withRelation, Instruction.generic,
      Instruction.make, hd, hx, hy]
  · simp [Instruction.withRelation, Instruction.generic, Instruction.make, hd, hx, hy]
  · exact fun h => by cases h
  · exact fun _ => rfl

omit hf hi in
theorem shaped_exclusiveOr {d x y : Operand} (hd : d.isPlace = false) (hx : x.isPlace = false)
    (hy : y.isPlace = false) : (exclusiveOr d x y).Shaped t slots :=
  .markExpanded (Instruction.shaped_plain (by simp [GenericOp.layouts]) (by simp [hd, hx, hy])
    (by decide))

theorem yields_expandCompare (hop : i.generic? = some .cmp)
    (himm : i.relation = some .lt ∨ i.relation = some .ltu → (i.operand? 2).any (·.isImmediate)) :
    Yields (Function.ShapedOver riscv32 slots) (expandCompare f b k i) := by
  have hcode := Instruction.generic?_eq_some hop
  have hshaped := hf.shaped hi
  have hlayout : i.layout = [false, false, false] := by
    simpa [GenericOp.layouts] using hshaped.layout_mem hcode
  obtain ⟨dest, lhs, rhs, hops, hdest, hlhs, hrhs⟩ := Instruction.operands_of_layout₃ hlayout
  obtain ⟨relation, hrelation⟩ := Option.isSome_iff_exists.mp
    (hshaped.related (Instruction.isGeneric_iff.mpr hcode))
  rw [expandCompare, hrelation, hops]
  rw [hrelation] at himm
  cases relation with
  | gt | le =>
    refine .ok (hf.replaceAt ?_)
    simpa using shaped_compare hdest hrhs hlhs
  | ge =>
    refine hf.fresh.bind fun r hr => .pure (hr.replaceAt ?_)
    simpa using ⟨shaped_compare rfl hlhs hrhs, shaped_exclusiveOr hdest rfl rfl⟩
  | eq =>
    refine hf.fresh.bind fun r hr => .pure (hr.replaceAt ?_)
    simpa using ⟨shaped_exclusiveOr rfl hlhs hrhs, shaped_compare hdest rfl rfl⟩
  | ne =>
    refine hf.fresh.bind fun r hr => .pure (hr.replaceAt ?_)
    simpa using ⟨shaped_exclusiveOr rfl hlhs hrhs, shaped_compare hdest rfl rfl⟩
  | lt => exact yields_materialize hf hi (himm (.inl rfl))
  | ltu => exact yields_materialize hf hi (himm (.inr rfl))

theorem yields_expand (hlegal : isLegal f b k = false) (hexpandable : isExpandable i) :
    Yields (Function.ShapedOver riscv32 slots) (expand f b k) := by
  rw [expand, hi]
  refine yields_expandConstants hf hi fun hfirst hconversion => ?_
  cases hop : i.generic? with
  | none => simp [isLegal, hi, hop] at hlegal
  | some op =>
    have hnarrow : (op.isFloat || isTooWide i) = false := by
      cases hwide : op.isFloat || isTooWide i with
      | false => rfl
      | true => simp [isExpandable, hop, hwide] at hexpandable
    simp only [isLegal, hi, hop, hnarrow, hfirst, hconversion, Bool.or_self, Bool.false_eq_true,
      if_false] at hlegal
    have himm : ∀ v, i.secondImmediate? = some v → (i.operand? 2).any (·.isImmediate) :=
      fun v hv => Instruction.operand?_of_secondImmediate? hv
    cases op with
    | store => exact yields_expandStoreImmediate hf hi (by simpa using hlegal)
    | cmp =>
      refine yields_expandCompare hf hi hop fun hrelation => ?_
      cases hsecond : i.secondImmediate? with
      | some v => exact himm v hsecond
      | none => rcases hrelation with hrelation | hrelation <;> simp [hsecond, hrelation] at hlegal
    | _ =>
      refine yields_materialize hf hi ?_
      cases hsecond : i.secondImmediate? with
      | some v => exact himm v hsecond
      | none => simp [hsecond] at hlegal

end Riscv

theorem Riscv.expands : Function.Expands riscv32 :=
  fun _ _ _ _ _ hf hi hlegal hexpandable => yields_expand hf hi hlegal hexpandable

end Retarget.Target

/-! ## The pass -/

namespace Retarget.Machine.Function

variable {t : Target} {slots : List Slot} {f : Function}

theorem yields_settle (ht : Expands t) (b k rounds : Nat) (hf : f.ShapedOver t slots) :
    Yields (ShapedOver t slots) (settle t b k rounds f) := by
  induction rounds generalizing f with
  | zero =>
    rw [settle]
    split
    · exact .ok hf
    · split
      · exact .ok hf
      · exact .error rfl
  | succ rounds ih =>
    rw [settle]
    split
    · exact .ok hf
    · next hlegal =>
      split
      · exact .ok hf
      · next i hi =>
        dsimp only
        split
        · next hexpandable =>
          exact (ht slots f b k i hf hi (by simpa using hlegal) hexpandable).bind fun f hf => ih hf
        · exact .error rfl

theorem yields_legalizeFrom (ht : Expands t) (b k budget : Nat) (hf : f.ShapedOver t slots) :
    Yields (ShapedOver t slots) (legalizeFrom t b budget k f) := by
  induction budget generalizing f k with
  | zero =>
    rw [legalizeFrom]
    split
    · exact .ok hf
    · exact .error rfl
  | succ budget ih =>
    rw [legalizeFrom]
    split
    · exact (yields_settle ht b k maxExpansions hf).bind fun f hf => ih (k + 1) hf
    · exact .ok hf

theorem yields_legalize (ht : Expands t) (hf : f.All (·.Shaped t f.slots)) :
    Yields (fun g => g.All (·.Shaped t g.slots)) (f.legalize t) := by
  have hover : Yields (ShapedOver t f.slots) (f.legalize t) := by
    rw [legalize]
    exact .foldlM ⟨rfl, hf⟩ fun f hf b _ => yields_legalizeFrom ht b 0 _ hf
  exact hover.mono fun g hg => hg.slots_eq ▸ hg.all

end Retarget.Machine.Function
