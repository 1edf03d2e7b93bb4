import Retarget.Proofs.ControlFlow
import Retarget.Proofs.Execution.Optimize
import Retarget.Proofs.Execution.Thinning

/-!
# What the optimizer keeps

Effects, selected instructions and definitions of something other than a virtual register can be
observed.  The walk over the blocks drops computations and loads into virtual registers, and the
sweeps drop definitions that are not read, so neither drops what can be observed; what stays is
renamed where it reads (`keepsEffects_optimized`).  The sweeps end when every definition of a
virtual register that is left, and that cannot be observed, is read (`readsDefinitions_dropDead`).
-/

namespace Retarget.Machine

variable {f g : Function} {rs : Renames} {i j : Instruction} {o o' o'' : Operand} {r : RegId}
  {b k : Nat} {entry : RegId × Source}

/-! ## Renaming what is read -/

/-- What may become of an operand that is read: another register in place of a virtual register, or
of the base of a memory operand. -/
inductive Operand.RenamedTo (o : Operand) : Operand → Prop
  | same : RenamedTo o o
  | register {r : RegId} (h : o.kind = .virtualReg r) (source : Source) :
    RenamedTo o (o.withKind source.kind)
  | base {r : RegId} {offset : Int} (h : o.kind = .memory r offset) (source : Source) :
    RenamedTo o (o.withKind (.memory source.id offset))

namespace Operand.RenamedTo

theorem trans (h : o.RenamedTo o') (h' : o'.RenamedTo o'') : o.RenamedTo o'' := by
  cases h with
  | same => exact h'
  | register hkind source =>
    cases h' with
    | same => exact .register hkind source
    | register _ next => exact .register hkind next
    | base hbase => cases source <;> cases hbase
  | base hkind source =>
    cases h' with
    | same => exact .base hkind source
    | register hregister => cases hregister
    | base hbase next =>
      cases hbase
      exact .base hkind next

theorem applyOperand (rs : Renames) (o : Operand) : o.RenamedTo (rs.applyOperand o) := by
  rw [Renames.applyOperand]
  split
  · next r hkind => exact .register hkind _
  · next base offset hkind =>
    rw [Operand.setReg, hkind]
    exact .base hkind _
  · exact .same

theorem isVirtual (h : o.RenamedTo o') (hvirtual : o.isVirtual = false) : o'.isVirtual = false := by
  cases h with
  | same => exact hvirtual
  | register hkind => simp [Operand.isVirtual, hkind] at hvirtual
  | base => rfl

end Operand.RenamedTo

/-- The same instruction, except that other registers may be read.  What it writes is the same. -/
structure Instruction.RenamedTo (i j : Instruction) : Prop where
  opcode : j.opcode = i.opcode
  relation : j.relation = i.relation
  flags : j.flags = i.flags
  operands : List.Forall₂ Operand.RenamedTo i.operands j.operands
  written : ∀ d, i.def? = some d → d.isVirtual → j.def? = some d

namespace Instruction

/-- Whether dropping the instruction could be noticed even if nobody reads what it defines. -/
def isObservable (i : Instruction) : Bool :=
  i.isEffect || i.isSelected || i.def?.any (!·.isVirtual)

/-- Of the definitions of virtual registers only the selected ones are observable. -/
theorem isObservable_of_virtualDef? (h : i.virtualDef? = some r) :
    i.isObservable = i.isSelected := by
  obtain ⟨d, hd, hkind⟩ := virtualDef?_eq_some.mp h
  have hplain : i.isEffect = false := by
    rw [def?] at hd
    split at hd
    · next hdef => simpa [hasDef] using (Bool.and_eq_true_iff.mp hdef).2
    · cases hd
  simp [isObservable, hplain, hd, Operand.isVirtual, hkind]

namespace RenamedTo

theorem trans {k : Instruction} (h : i.RenamedTo j) (h' : j.RenamedTo k) : i.RenamedTo k where
  opcode := h'.opcode.trans h.opcode
  relation := h'.relation.trans h.relation
  flags := h'.flags.trans h.flags
  operands := by
    have hboth : ∀ {l₁ l₂ l₃ : List Operand}, List.Forall₂ Operand.RenamedTo l₁ l₂ →
        List.Forall₂ Operand.RenamedTo l₂ l₃ → List.Forall₂ Operand.RenamedTo l₁ l₃ := by
      intro l₁ l₂ l₃ h₁ h₂
      induction h₁ generalizing l₃ with
      | nil => exact h₂
      | cons hfirst _ ih =>
        cases h₂ with
        | cons hfirst' hrest' => exact .cons (hfirst.trans hfirst') (ih hrest')
    exact hboth h.operands h'.operands
  written d hd hvirtual := h'.written d (h.written d hd hvirtual) hvirtual

theorem apply (h : ∀ r, i.virtualDef? = some r → rs.entries.lookup r = none) :
    i.RenamedTo (rs.apply i) where
  opcode := rfl
  relation := rfl
  flags := rfl
  operands := by
    rw [Renames.apply, Instruction.withOperands, List.forall₂_map_right_iff, List.forall₂_same]
    exact fun o _ => .applyOperand rs o
  written d hd hvirtual := by
    rw [Instruction.def?_apply, hd, Option.map_some]
    congr 1
    cases hkind : d.kind with
    | virtualReg r =>
      exact Renames.applyOperand_eq_self hkind (h r (virtualDef?_eq_some.mpr ⟨d, hd, hkind⟩))
    | _ => simp [Operand.isVirtual, hkind] at hvirtual

theorem isEffect (h : i.RenamedTo j) : j.isEffect = i.isEffect := by
  simp only [Instruction.isEffect, isStore, isReturn, isJump, isCall, h.flags]

theorem def? (h : i.RenamedTo j) : Option.Rel Operand.RenamedTo i.def? j.def? := by
  have hoperands := h.operands
  rw [Instruction.def?, Instruction.def?, hasDef, hasDef, isEffect h]
  generalize i.operands = os, j.operands = os' at hoperands
  cases hoperands with
  | nil => exact .none
  | cons hfirst _ =>
    cases i.isEffect with
    | true => exact .none
    | false => exact .some hfirst

theorem isObservable (h : i.RenamedTo j) : j.isObservable = i.isObservable := by
  have hselected : j.isSelected = i.isSelected := by rw [isSelected, isSelected, h.opcode]
  have hdef : j.def?.any (!·.isVirtual) = i.def?.any (!·.isVirtual) := by
    have hrel := h.def?
    have hwritten := h.written
    generalize i.def? = d, j.def? = d' at hrel hwritten
    cases hrel with
    | none => rfl
    | @some d d' hd =>
      cases hvirtual : d.isVirtual with
      | true =>
        cases hwritten d rfl hvirtual
        rfl
      | false => simp [hd.isVirtual hvirtual, hvirtual]
  rw [Instruction.isObservable, Instruction.isObservable, isEffect h, hselected, hdef]

end RenamedTo

end Instruction

def Block.observed (b : Block) : String × List Instruction :=
  (b.name, b.instructions.filter (·.isObservable))

/-! ## The walk -/

theorem Known.not_isObservable {kn : Known} {defs : List RegId}
    (h : kn.redundant? defs i = some entry) : i.isObservable = false := by
  obtain ⟨hdef, hcases⟩ := redundant?_cases h
  rw [Instruction.isObservable_of_virtualDef? hdef, Instruction.isSelected]
  rcases hcases with ⟨hload, -⟩ | ⟨op, d, hop, -⟩
  · rw [eq_of_beq hload]
    rfl
  · cases hopcode : i.opcode with
    | generic op => rfl
    | native number =>
      rw [Instruction.generic?, hopcode] at hop
      cases hop

namespace Function

/-- What stays is renamed where it reads, on the way and in the end. -/
theorem Stays.renamedTo (h : f.Stays (b, k)) (hi : f.instruction? b k = some i) :
    i.RenamedTo (f.allRenames.apply ((f.renamesAt (b, k)).apply i)) := by
  have htraced := f.traced (b, k)
  refine .trans (.apply fun r hr => htraced.lookup_eq_none ⟨i, hi, hr⟩)
    (.apply fun r hr => ?_)
  rw [htraced.virtualDef?_apply hi] at hr
  rw [List.lookup_eq_none_iff]
  intro entry hentry
  rw [bne_iff_ne]
  rintro rfl
  -- a renamed register has its only definition where the walk drops it
  obtain ⟨p, -, hdrop, honce⟩ := (f.traced (f.blocks.length, 0)).renames entry hentry
  have hhere : f.Defines (b, k) entry.1 := ⟨i, hi, hr⟩
  cases honce.unique hhere
  exact h entry hdrop

/-- What is observable of a block is what is observable of what is left of it. -/
theorem renamed_remaining (f : Function) (b k : Nat) :
    List.Forall₂ Instruction.RenamedTo ((f.rest b k).filter (·.isObservable))
      (((f.remaining (b, k)).2.map f.allRenames.apply).filter (·.isObservable)) := by
  refine remaining_induction (P := fun is js => List.Forall₂ Instruction.RenamedTo
    (is.filter (·.isObservable)) ((js.map f.allRenames.apply).filter (·.isObservable))) f b .nil
    (fun {k i _} hi hredundant _ _ ih => ?_) (fun {k i} hi hredundant _ _ ih => ?_) k
  · have hrenamed : i.RenamedTo ((f.renamesAt (b, k)).apply i) :=
      .apply fun r hr => (f.traced (b, k)).lookup_eq_none ⟨i, hi, hr⟩
    have hplain := hrenamed.isObservable.symm.trans (Known.not_isObservable hredundant)
    rwa [List.filter_cons_of_neg (by simp [hplain])]
  · have hstays : f.Stays (b, k) := by
      rintro entry ⟨i', hi', hentry⟩
      cases hi.symm.trans hi'
      cases hredundant.symm.trans hentry
    have hrenamed := hstays.renamedTo hi
    rw [List.map_cons]
    cases hobservable : i.isObservable with
    | true =>
      rw [List.filter_cons_of_pos hobservable,
        List.filter_cons_of_pos (hrenamed.isObservable.trans hobservable)]
      exact .cons hrenamed ih
    | false =>
      rwa [List.filter_cons_of_neg (by simp [hobservable]),
        List.filter_cons_of_neg (by simp [hrenamed.isObservable, hobservable])]

/-! ## The sweeps -/

theorem not_isObservable_of_isDead {reads : List RegId} (h : isDead reads i = true) :
    i.isObservable = false := by
  obtain ⟨-, d, r, hd, hkind, -⟩ := exists_of_isDead h
  rw [Instruction.isObservable_of_virtualDef? (Instruction.virtualDef?_eq_some.mpr ⟨d, hd, hkind⟩)]
  simp only [isDead, Bool.and_eq_true, Bool.not_eq_true'] at h
  exact h.1.1

theorem observed_sweep (f : Function) :
    f.sweep.blocks.map (·.observed) = f.blocks.map (·.observed) := by
  rw [sweep, List.map_map]
  refine List.map_congr_left fun block _ => ?_
  simp only [Block.observed, Function.comp_apply, List.filter_filter, Prod.mk.injEq, true_and]
  refine List.filter_congr fun i _ => ?_
  cases hdead : isDead f.reads i with
  | true => simp [not_isObservable_of_isDead hdead]
  | false => simp

theorem observed_dropDead (f : Function) :
    f.dropDead.blocks.map (·.observed) = f.blocks.map (·.observed) := by
  induction f using Function.dropDead.induct with
  | case1 f hlt ih => rw [dropDead, if_pos hlt, ih, observed_sweep]
  | case2 f hge => rw [dropDead, if_neg hge]

theorem mem_reads_iff : r ∈ f.reads ↔ ∃ i ∈ f.instructions, r ∈ i.readIds :=
  List.mem_flatMap

theorem not_isDead_dropDead (f : Function) :
    ∀ i ∈ f.dropDead.instructions, isDead f.dropDead.reads i = false := by
  induction f using Function.dropDead.induct with
  | case1 f hlt ih =>
    rw [dropDead, if_pos hlt]
    exact ih
  | case2 f hge =>
    rw [dropDead, if_neg hge]
    have hswept : f.sweep.instructions = f.instructions.filter fun i => !isDead f.reads i := by
      rw [instructions, instructions, List.filter_flatMap, sweep, List.flatMap_map]
    rw [hswept] at hge
    have hall := List.length_filter_eq_length_iff.mp
      (Nat.le_antisymm (List.length_filter_le _ _) (Nat.not_lt.mp hge))
    exact fun i hi => by simpa using hall i hi

/-- Every definition of a virtual register is read, unless dropping it could be noticed anyway. -/
def ReadsDefinitions (f : Function) : Prop :=
  ∀ i ∈ f.instructions, i.isObservable = false → ∀ r, i.virtualDef? = some r →
    ∃ j ∈ f.instructions, r ∈ j.readIds

theorem readsDefinitions_dropDead (f : Function) : f.dropDead.ReadsDefinitions := by
  intro i hi hplain r hr
  have hdead := f.not_isDead_dropDead i hi
  rw [← mem_reads_iff]
  by_contra hread
  have hselected : i.isSelected = false :=
    (Instruction.isObservable_of_virtualDef? hr).symm.trans hplain
  have heffect : i.isEffect = false := by
    rw [Instruction.isObservable, Bool.or_eq_false_iff, Bool.or_eq_false_iff] at hplain
    exact hplain.1.1
  rw [Instruction.virtualDef?] at hr
  simp [isDead, hselected, heffect, hr, hread] at hdead

/-! ## Optimized code -/

/-- Every block keeps its name and what is observable of it, up to renaming. -/
def KeepsEffects (f g : Function) : Prop :=
  List.Forall₂ (fun o o' : String × List Instruction =>
    o'.1 = o.1 ∧ List.Forall₂ Instruction.RenamedTo o.2 o'.2)
    (f.blocks.map (·.observed)) (g.blocks.map (·.observed))

theorem keepsEffects_simplify (f : Function) : f.KeepsEffects f.simplify := by
  rw [KeepsEffects, List.forall₂_map_left_iff, List.forall₂_map_right_iff, List.forall₂_iff_get]
  refine ⟨f.length_blocks_simplify.symm, fun b hb hb' => ?_⟩
  have hblock : f.blocks[b]? = some f.blocks[b] := List.getElem?_eq_getElem hb
  have hblock' := f.blocks_simplify b
  rw [List.getElem?_eq_getElem hb', hblock, Option.map_some, Option.some.injEq] at hblock'
  have hrest : f.rest b 0 = f.blocks[b].instructions := by
    rw [rest, hblock]
    rfl
  have hrenamed := f.renamed_remaining b 0
  rw [hrest] at hrenamed
  rw [List.get_eq_getElem, List.get_eq_getElem, hblock']
  exact ⟨rfl, hrenamed⟩

/-- **The optimizer keeps every effect and leaves no dead definition.** -/
theorem keepsEffects_optimized (h : f.optimized = .ok g) :
    f.KeepsEffects g ∧ g.ReadsDefinitions := by
  obtain ⟨-, rfl⟩ := optimized_eq_ok.mp h
  have hsimplified := f.keepsEffects_simplify
  refine ⟨?_, f.simplify.readsDefinitions_dropDead⟩
  rw [KeepsEffects] at hsimplified ⊢
  rwa [optimize, observed_dropDead]

/-- The reload in another block is dropped, and what was stored is returned in its place. -/
theorem keepsEffects_reload : reload.optimized = .ok reload.optimize ∧
    reload.KeepsEffects reload.optimize ∧ reload.optimize.ReadsDefinitions := by
  have hoptimized : reload.optimized = .ok reload.optimize := by decide +kernel
  exact ⟨hoptimized, keepsEffects_optimized hoptimized⟩

end Function

end Retarget.Machine
