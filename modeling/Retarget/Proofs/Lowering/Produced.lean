import Retarget.Proofs.Lowering.Operands
import Retarget.Proofs.Shape.Lowering
import Retarget.Proofs.Shape.Passes

/-!
# Functions that lowering produces

What later passes get to see is lowered code, simplified or not (`Target.Produces`).  Simplification
renames registers to others that the function has, so produced code is plain (`Produces.plain`) and
shaped (`Produces.shaped`) in either case.
-/

namespace Retarget

open Machine

namespace Machine

variable {t : Target} {next : Nat} {rs : Renames} {k : Known} {defs : List RegId} {i : Instruction}

theorem Source.unallocated?_of_of? {o : Operand} {source : Source} (h : Source.of? o = some source) :
    o.unallocated? = some source.id := by
  obtain ⟨kind, ty, regClass⟩ := o
  cases kind with
  | virtualReg r | parameter r =>
    cases h
    rfl
  | _ => cases h

/-- Renamings lead to ids below `next`. -/
def Renames.Below (next : Nat) (rs : Renames) : Prop := ∀ e ∈ rs.entries, e.2.id < next

/-- What is known is in registers with ids below `next`. -/
structure Known.Below (next : Nat) (k : Known) : Prop where
  slots : ∀ e ∈ k.slots, ∀ r, e.2.unallocated? = some r → r < next
  expressions : ∀ e ∈ k.expressions, e.2.id < next

theorem Known.below_empty : Known.Below next {} := ⟨by simp, by simp⟩

namespace Renames

theorem Below.follow (h : rs.Below next) (steps : Nat) {source : Source}
    (hsource : source.id < next) :
    (rs.follow steps source).id < next := by
  induction steps generalizing source with
  | zero =>
    rw [Renames.follow]
    · exact hsource
    · nofun
  | succ steps ih =>
    cases source with
    | parameter id => exact hsource
    | virtualReg id =>
      rw [Renames.follow]
      split
      · next source' hlookup =>
        exact ih (h (id, source') (mem_of_lookup_eq_some hlookup))
      · exact hsource

theorem Below.plain_applyOperand (h : rs.Below next) {o : Operand} (ho : o.Plain t next) :
    (rs.applyOperand o).Plain t next := by
  rw [applyOperand]
  split
  · next reg hkind =>
    have hid : (rs.resolve (.virtualReg reg)).id < next :=
      h.follow _ (ho.id_lt reg (by rw [Operand.unallocated?, hkind]))
    cases hsource : rs.resolve (.virtualReg reg) with
    | virtualReg id =>
      rw [hsource] at hid
      exact ⟨fun r hr => by cases hr; exact hid, (fun _ h => by cases h), fun _ h => by cases h⟩
    | parameter id =>
      rw [hsource] at hid
      exact ⟨fun r hr => by cases hr; exact hid, (fun _ h => by cases h), fun _ h => by cases h⟩
  · next base offset hkind =>
    have hid : (rs.resolve (.virtualReg base)).id < next :=
      h.follow _ (ho.id_lt base (by rw [Operand.unallocated?, hkind]))
    rw [Operand.setReg, hkind]
    exact ⟨fun r hr => by cases hr; exact hid, (fun _ h => by cases h), fun _ h => by cases h⟩
  · exact ho

theorem isRegLike_applyOperand (rs : Renames) (o : Operand) :
    (rs.applyOperand o).isRegLike = o.isRegLike := by
  rw [applyOperand]
  split
  · next reg hkind =>
    cases rs.resolve (.virtualReg reg) <;>
      simp [Operand.isRegLike, Operand.withKind, Source.kind, hkind]
  · next base offset hkind =>
    simp [Operand.isRegLike, Operand.setReg, Operand.withKind, hkind]
  · rfl

theorem isImmediate_applyOperand (rs : Renames) (o : Operand) :
    (rs.applyOperand o).isImmediate = o.isImmediate := by
  rw [applyOperand]
  split
  · next reg hkind =>
    cases rs.resolve (.virtualReg reg) <;>
      simp [Operand.isImmediate, Operand.withKind, Source.kind, hkind]
  · next base offset hkind =>
    simp [Operand.isImmediate, Operand.setReg, Operand.withKind, hkind]
  · rfl

theorem ty_applyOperand (rs : Renames) (o : Operand) : (rs.applyOperand o).ty = o.ty := by
  rw [applyOperand]
  split
  · rfl
  · next hkind => simp [Operand.setReg, hkind, Operand.withKind]
  · rfl

theorem suits_map (rs : Renames) {op : GenericOp} {operands : List Operand}
    (h : op.Suits t operands) : op.Suits t (operands.map rs.applyOperand) := by
  have hhead : (∀ o ∈ operands.head?, o.isRegLike) →
      ∀ o ∈ (operands.map rs.applyOperand).head?, o.isRegLike := by
    intro hhead o ho
    rw [List.head?_map] at ho
    obtain ⟨o', ho', rfl⟩ := Option.map_eq_some_iff.mp ho
    rw [isRegLike_applyOperand]
    exact hhead o' ho'
  cases op with
  | cmp | sext | zext | trunc =>
    refine ⟨hhead h.1, fun o ho => ?_⟩
    obtain ⟨o', ho', rfl⟩ := List.mem_map.mp ho
    rw [isRegLike_applyOperand, isImmediate_applyOperand]
    exact h.2 o' ho'
  | and | or | xor | lsl | lsr | loadImm | mov | movf => exact hhead h
  | globalAddress =>
    obtain ⟨dest, name, rfl, hdest, hty⟩ := h
    exact ⟨rs.applyOperand dest, name, rfl, by rwa [isRegLike_applyOperand],
      by rwa [ty_applyOperand]⟩
  | _ => trivial

theorem Below.plain_apply (h : rs.Below next) (hi : i.Plain t next) : (rs.apply i).Plain t next := by
  obtain ⟨op, hcode, hflags, hsuits⟩ := hi.form
  refine ⟨⟨op, hcode, hflags, rs.suits_map hsuits⟩, fun o ho => ?_⟩
  obtain ⟨o', ho', rfl⟩ := List.mem_map.mp ho
  exact h.plain_applyOperand (hi.operands o' ho')

end Renames

theorem Instruction.Plain.singleDefinition?_lt (hi : i.Plain t next) {r : RegId}
    (h : i.singleDefinition? defs = some r) : r < next := by
  rw [singleDefinition?, Option.filter_eq_some_iff] at h
  obtain ⟨d, hd, hr⟩ := Option.bind_eq_some_iff.mp h.1
  obtain ⟨hd, hvirtual⟩ := Option.filter_eq_some_iff.mp hd
  have hmem : d ∈ i.operands := by
    rw [Instruction.def?] at hd
    split at hd
    · exact List.mem_of_head? hd
    · cases hd
  refine (hi.operands d hmem).id_lt r ?_
  obtain ⟨kind, ty, regClass⟩ := d
  cases kind with
  | virtualReg reg => exact hr
  | _ => cases hvirtual

namespace Known.Below

theorem redundant? (hk : k.Below next) {entry : RegId × Source}
    (h : k.redundant? defs i = some entry) : entry.2.id < next := by
  rw [Known.redundant?] at h
  split at h
  · cases h
  · split at h
    · obtain ⟨dest, -, h⟩ := Option.bind_eq_some_iff.mp h
      obtain ⟨place, -, h⟩ := Option.bind_eq_some_iff.mp h
      obtain ⟨value, hvalue, h⟩ := Option.bind_eq_some_iff.mp h
      obtain ⟨_, -, h⟩ := Option.bind_eq_some_iff.mp h
      obtain ⟨source, hsource, h⟩ := Option.bind_eq_some_iff.mp h
      cases h
      exact hk.slots (place, value) (mem_of_lookup_eq_some hvalue) _
        (Source.unallocated?_of_of? hsource)
    · obtain ⟨⟨dest, e⟩, -, h⟩ := Option.bind_eq_some_iff.mp h
      obtain ⟨earlier, hearlier, h⟩ := Option.bind_eq_some_iff.mp h
      cases h
      exact hk.expressions (e, earlier) (mem_of_lookup_eq_some hearlier)

theorem afterStore (hk : k.Below next) (hi : i.Plain t next) :
    (k.afterStore defs i).Below next := by
  have hothers : ∀ slot : Slot, ∀ e ∈ k.slots.filter fun entry => entry.1.1 != slot,
      ∀ r, e.2.unallocated? = some r → r < next :=
    fun slot e he => hk.slots e (List.mem_filter.mp he).1
  rw [Known.afterStore]
  split
  · next slot offset value _ hvalue =>
    dsimp only
    split
    · refine ⟨List.forall_mem_cons.mpr ⟨fun r hr => ?_, hothers slot⟩, hk.expressions⟩
      exact (hi.operands value (List.mem_of_getElem? hvalue)).id_lt r hr
    · exact ⟨hothers slot, hk.expressions⟩
  · exact ⟨by simp, hk.expressions⟩

theorem after (hk : k.Below next) (hi : i.Plain t next) : (k.after defs i).Below next := by
  rw [Known.after]
  split
  · exact below_empty
  · split
    · exact hk.afterStore hi
    · split
      · next dest e hexpression =>
        refine ⟨hk.slots, List.forall_mem_cons.mpr ⟨?_, hk.expressions⟩⟩
        obtain ⟨_, -, h⟩ := Option.bind_eq_some_iff.mp hexpression
        obtain ⟨dest', hdest, h⟩ := Option.bind_eq_some_iff.mp h
        obtain ⟨d, -, h⟩ := Option.bind_eq_some_iff.mp h
        obtain ⟨_, -, h⟩ := Option.bind_eq_some_iff.mp h
        cases h
        exact hi.singleDefinition?_lt hdest
      · exact hk

end Known.Below

theorem plain_simplifier (t : Target) (next : Nat) (defs : List RegId) :
    SimplifierKeeps defs (Renames.Below next) (Known.Below next) (·.Plain t next) where
  start := by simp [Renames.Below]
  unknown := Known.below_empty
  apply hrs hi := hrs.plain_apply hi
  insert hrs hk _ hredundant := List.forall_mem_cons.mpr ⟨hk.redundant? hredundant, hrs⟩
  after hk hi := hk.after hi

namespace Function

variable {f : Function}

theorem nextId_optimize (f : Function) : f.optimize.nextId = f.nextId := by
  rw [optimize_eq]

theorem usedCalleeSaved_optimize (f : Function) :
    f.optimize.usedCalleeSaved = f.usedCalleeSaved := by
  rw [optimize_eq]

theorem plain_optimize (h : f.All (·.Plain t f.nextId)) :
    f.optimize.All (·.Plain t f.optimize.nextId) := by
  rw [nextId_optimize]
  exact ((plain_simplifier t f.nextId f.definitions).simplify h).dropDead

end Function

end Machine

/-- The function is the lowered form of a function of some module, simplified or not. -/
def Target.Produces (t : Target) (f : Function) : Prop :=
  ∃ m code, Lowering.lowerModule t m = .ok code ∧ ∃ g ∈ code.functions, f = g ∨ f = g.optimize

/-- The function is the lowered form of a function of the module, simplified or not. -/
def Target.ProducesFrom (t : Target) (m : Ir.Module) (f : Function) : Prop :=
  ∃ code, Lowering.lowerModule t m = .ok code ∧ ∃ g ∈ code.functions, f = g ∨ f = g.optimize

theorem Target.ProducesFrom.produces {t : Target} {m : Ir.Module} {f : Function}
    (h : t.ProducesFrom m f) : t.Produces f :=
  ⟨m, h⟩

theorem Lowering.exists_lowerFunction_of_mem {t : Target} {m : Ir.Module} {code : Machine.Module}
    {f : Function} (hcode : lowerModule t m = .ok code) (hf : f ∈ code.functions) :
    ∃ source ∈ m.functions, lowerFunction t source = .ok f := by
  obtain ⟨globals, -, hcode⟩ := bind_eq_ok.mp hcode
  obtain ⟨functions, hfunctions, hcode⟩ := bind_eq_ok.mp hcode
  cases hcode
  obtain ⟨source, hsource, hlower⟩ := exists_of_mem_mapM_eq_ok hfunctions hf
  exact ⟨source, (List.mem_filter.mp hsource).1, hlower⟩

theorem Target.ProducesFrom.exists_lowerFunction {t : Target} {m : Ir.Module} {f : Function}
    (h : t.ProducesFrom m f) : ∃ source ∈ m.functions, ∃ g,
      Lowering.lowerFunction t source = .ok g ∧ (f = g ∨ f = g.optimize) := by
  obtain ⟨code, hcode, g, hg, hf⟩ := h
  obtain ⟨source, hsource, hlower⟩ := Lowering.exists_lowerFunction_of_mem hcode hg
  exact ⟨source, hsource, g, hlower, hf⟩

namespace Target.Produces

variable {t : Target} {f : Function}

theorem shaped (h : t.Produces f) : f.All (·.Shaped t f.slots) := by
  obtain ⟨m, code, hcode, g, hg, hf⟩ := h
  have hshaped := (Lowering.yields_lowerModule t m).of_eq_ok hcode g hg
  rcases hf with rfl | rfl
  · exact hshaped
  · exact hshaped.optimize

theorem exists_lowerFunction (h : t.Produces f) :
    ∃ source g, Lowering.lowerFunction t source = .ok g ∧ (f = g ∨ f = g.optimize) := by
  obtain ⟨m, hm⟩ := h
  obtain ⟨source, -, hlower⟩ := Target.ProducesFrom.exists_lowerFunction hm
  exact ⟨source, hlower⟩

theorem plain (h : t.Produces f) : f.All (·.Plain t f.nextId) := by
  obtain ⟨source, g, hlower, rfl | rfl⟩ := h.exists_lowerFunction
  · exact Lowering.plain_lowerFunction hlower
  · exact Function.plain_optimize (Lowering.plain_lowerFunction hlower)

theorem usedCalleeSaved_eq (h : t.Produces f) : f.usedCalleeSaved = [] := by
  obtain ⟨source, g, hlower, rfl | rfl⟩ := h.exists_lowerFunction
  · exact Lowering.usedCalleeSaved_lowerFunction hlower
  · rw [Function.usedCalleeSaved_optimize]
    exact Lowering.usedCalleeSaved_lowerFunction hlower

end Target.Produces

end Retarget
