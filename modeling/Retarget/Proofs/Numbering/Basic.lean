import Mathlib.Data.List.Nodup
import Retarget.Proofs.LiveRange
import Retarget.Proofs.Shape.Basic

/-!
# Ids from one counter

Virtual registers, parameters and frame objects of a function are numbered by one counter.  An id in
use that neither a parameter nor a frame object has was drawn for a virtual register
(`HasRegister`), and drawing more ids leaves the old ones what they are (`Extends`).  In a numbered
function every operand names ids for what they were drawn for (`Numbered`), so no id stands for two
things (`Numbered.idsApart`).
-/

namespace Retarget.Machine

namespace Operand

def virtualReg? (o : Operand) : Option RegId :=
  match o.kind with
  | .virtualReg id => some id
  | _ => none

def parameter? (o : Operand) : Option RegId :=
  match o.kind with
  | .parameter id => some id
  | _ => none

def base? (o : Operand) : Option RegId :=
  match o.kind with
  | .memory base _ => some base
  | _ => none

end Operand

namespace Function

variable {f g h : Function} {id : RegId}

/-! ## Ids -/

def slotIds (f : Function) : List RegId := f.slots.map (·.id)

/-- The ids of parameters and frame objects. -/
def declaredIds (f : Function) : List RegId := f.paramIds ++ f.slotIds

def operands (f : Function) : List Operand := f.instructions.flatMap (·.operands)

/-- The id was drawn, but neither for a parameter nor for a frame object. -/
structure HasRegister (f : Function) (id : RegId) : Prop where
  used : id < f.nextId
  undeclared : id ∉ f.declaredIds

/-- **No id stands for two things**: parameters, frame objects and the virtual registers among the
operands have different ids below the counter, and operands that read a parameter, are addressed by a
register or name a frame object name one of the function.  A register can be named by addresses
only, if nothing defines it. -/
structure IdsApart (f : Function) : Prop where
  params_nodup : f.paramIds.Nodup
  slots_nodup : f.slotIds.Nodup
  params_slots : f.paramIds.Disjoint f.slotIds
  registers_params : (f.operands.filterMap (·.virtualReg?)).Disjoint f.paramIds
  registers_slots : (f.operands.filterMap (·.virtualReg?)).Disjoint f.slotIds
  used : ∀ id ∈ f.paramIds ++ f.slotIds ++ f.operands.filterMap (·.virtualReg?), id < f.nextId
  parameters : ∀ id ∈ f.operands.filterMap (·.parameter?), id ∈ f.paramIds
  bases : ∀ id ∈ f.operands.filterMap (·.base?), f.HasRegister id ∨ id ∈ f.paramIds
  slots : ∀ slot ∈ f.operands.filterMap (·.slot?), f.frame.contains slot

/-! ## Drawing ids -/

/-- Parameters and frame objects have different ids, all of which are in use. -/
structure Drawn (f : Function) : Prop where
  nodup : f.declaredIds.Nodup
  used : ∀ id ∈ f.declaredIds, id < f.nextId

/-- `g` is `f` after more ids were drawn. -/
structure Extends (f g : Function) : Prop where
  nextId_le : f.nextId ≤ g.nextId
  params : f.paramIds ⊆ g.paramIds
  slots : f.slots ⊆ g.slots
  new : ∀ id ∈ g.declaredIds, id ∈ f.declaredIds ∨ f.nextId ≤ id

/-- `g` is `f` after more ids were drawn for registers. -/
structure Widens (f g : Function) : Prop where
  nextId_le : f.nextId ≤ g.nextId
  params_eq : g.params = f.params
  frame_eq : g.frame = f.frame

/-- `g` is `f` after the next id was drawn for a parameter or a frame object. -/
structure Declares (f g : Function) : Prop where
  nextId_eq : g.nextId = f.nextId + 1
  params : f.paramIds ⊆ g.paramIds
  slots : f.slots ⊆ g.slots
  declaredIds_perm : g.declaredIds.Perm (f.nextId :: f.declaredIds)

namespace Extends

theorem refl (f : Function) : f.Extends f :=
  ⟨Nat.le_refl _, List.Subset.refl _, List.Subset.refl _, fun _ hid => .inl hid⟩

theorem trans (hfg : f.Extends g) (hgh : g.Extends h) : f.Extends h where
  nextId_le := Nat.le_trans hfg.nextId_le hgh.nextId_le
  params := List.Subset.trans hfg.params hgh.params
  slots := List.Subset.trans hfg.slots hgh.slots
  new id hid := by
    rcases hgh.new id hid with hid | hle
    · exact hfg.new id hid
    · exact .inr (Nat.le_trans hfg.nextId_le hle)

end Extends

theorem HasRegister.mono (hid : f.HasRegister id) (hfg : f.Extends g) : g.HasRegister id where
  used := Nat.lt_of_lt_of_le hid.used hfg.nextId_le
  undeclared hmem := (hfg.new id hmem).elim hid.undeclared (Nat.not_le_of_lt hid.used)

namespace Widens

theorem declaredIds_eq (hfg : f.Widens g) : g.declaredIds = f.declaredIds := by
  rw [declaredIds, paramIds, slotIds, slots, hfg.params_eq, hfg.frame_eq]
  rfl

theorem toExtends (hfg : f.Widens g) : f.Extends g where
  nextId_le := hfg.nextId_le
  params := by rw [paramIds, paramIds, hfg.params_eq]; exact List.Subset.refl _
  slots := by rw [slots, slots, hfg.frame_eq]; exact List.Subset.refl _
  new id hid := .inl (hfg.declaredIds_eq ▸ hid)

theorem drawn (hfg : f.Widens g) (hf : f.Drawn) : g.Drawn where
  nodup := hfg.declaredIds_eq ▸ hf.nodup
  used id hid := Nat.lt_of_lt_of_le (hf.used id (hfg.declaredIds_eq ▸ hid)) hfg.nextId_le

theorem hasRegister (hfg : f.Widens g) (hf : f.Drawn) (hnew : f.nextId ≤ id)
    (hused : id < g.nextId) : g.HasRegister id where
  used := hused
  undeclared hid :=
    Nat.not_lt_of_le hnew (hf.used id (hfg.declaredIds_eq ▸ hid))

end Widens

namespace Declares

theorem drawn (hfg : f.Declares g) (hf : f.Drawn) : g.Drawn where
  nodup := by
    rw [hfg.declaredIds_perm.nodup_iff, List.nodup_cons]
    exact ⟨fun hid => Nat.lt_irrefl _ (hf.used _ hid), hf.nodup⟩
  used id hid := by
    rw [hfg.nextId_eq]
    rcases List.mem_cons.mp (hfg.declaredIds_perm.mem_iff.mp hid) with rfl | hid
    · exact Nat.lt_succ_self _
    · exact Nat.lt_succ_of_lt (hf.used id hid)

theorem toExtends (hfg : f.Declares g) : f.Extends g where
  nextId_le := hfg.nextId_eq ▸ Nat.le_succ _
  params := hfg.params
  slots := hfg.slots
  new id hid := by
    rcases List.mem_cons.mp (hfg.declaredIds_perm.mem_iff.mp hid) with rfl | hid
    · exact .inr (Nat.le_refl _)
    · exact .inl hid

theorem slot (f : Function) (size : Nat) :
    f.Declares { f with nextId := f.nextId + 1, frame := f.frame.insert ⟨f.nextId⟩ size } where
  nextId_eq := rfl
  params := List.Subset.refl _
  slots := by simp [Function.slots, Frame.insert]
  declaredIds_perm := by
    refine .trans (.of_eq ?_) (List.perm_append_singleton f.nextId f.declaredIds)
    simp [declaredIds, paramIds, slotIds, Function.slots, Frame.insert]

theorem parameter (f : Function) (ty : LowType) (isFloat isReturnBuffer : Bool) :
    f.Declares { f with
      nextId := f.nextId + 1
      params := f.params ++ [⟨f.nextId, ty, isFloat, isReturnBuffer⟩] } where
  nextId_eq := rfl
  params := by simp [paramIds]
  slots := List.Subset.refl _
  declaredIds_perm := by
    have hmiddle : (f.paramIds ++ f.nextId :: f.slotIds).Perm (f.nextId :: f.declaredIds) :=
      List.perm_middle
    refine .trans (.of_eq ?_) hmiddle
    simp [declaredIds, paramIds, slotIds, Function.slots]

end Declares

end Function

/-! ## Operands of a numbered function -/

/-- What the operand names, the function has. -/
def Operand.Kind.Numbered (f : Function) : Operand.Kind → Prop
  | .virtualReg id => f.HasRegister id
  | .parameter id => id ∈ f.paramIds
  | .memory base _ => f.HasRegister base ∨ base ∈ f.paramIds
  | .stack slot _ => slot ∈ f.slots
  | _ => True

def Operand.Numbered (f : Function) (o : Operand) : Prop := o.kind.Numbered f

def Instruction.Numbered (f : Function) (i : Instruction) : Prop := ∀ o ∈ i.operands, o.Numbered f

/-- Each id of the function is named for what it was drawn for. -/
structure Function.Numbered (f : Function) : Prop where
  drawn : f.Drawn
  code : f.All (·.Numbered f)

section

variable {f g : Function}

theorem Operand.Numbered.mono {o : Operand} (ho : o.Numbered f) (hfg : f.Extends g) :
    o.Numbered g := by
  obtain ⟨kind, ty, regClass⟩ := o
  cases kind with
  | virtualReg id => exact Function.HasRegister.mono ho hfg
  | parameter id => exact hfg.params ho
  | memory base offset => exact Or.imp (·.mono hfg) (hfg.params ·) ho
  | stack slot offset => exact hfg.slots ho
  | _ => trivial

theorem Instruction.Numbered.mono {i : Instruction} (hi : i.Numbered f) (hfg : f.Extends g) :
    i.Numbered g :=
  fun o ho => (hi o ho).mono hfg

theorem Operand.numbered_of_isImmediate {o : Operand} (ho : o.isImmediate) : o.Numbered f := by
  obtain ⟨kind, ty, regClass⟩ := o
  cases kind with
  | immediate value => trivial
  | _ => cases ho

namespace Operand

variable (id : RegId) (slot : Slot) (value : Int) (name : String) (ty : LowType)

@[simp] theorem numbered_virtualReg : (virtualReg id ty).Numbered f ↔ f.HasRegister id := Iff.rfl

@[simp] theorem numbered_parameter : (parameter id ty).Numbered f ↔ id ∈ f.paramIds := Iff.rfl

@[simp] theorem numbered_memory :
    (memory id value ty).Numbered f ↔ f.HasRegister id ∨ id ∈ f.paramIds :=
  Iff.rfl

@[simp] theorem numbered_stack : (stack slot value ty).Numbered f ↔ slot ∈ f.slots := Iff.rfl

@[simp] theorem numbered_physicalReg : (physicalReg id ty).Numbered f := trivial

@[simp] theorem numbered_immediate : (immediate value ty).Numbered f := trivial

@[simp] theorem numbered_label : (label name).Numbered f := trivial

@[simp] theorem numbered_function : (function name).Numbered f := trivial

@[simp] theorem numbered_global : (global name ty).Numbered f := trivial

end Operand

end

namespace Function.Numbered

variable {f : Function} {id : RegId}

theorem of_mem_filterMap (hf : f.Numbered) {α : Type} {part? : Operand → Option α} {P : α → Prop}
    (hpart : ∀ o a, o.Numbered f → part? o = some a → P a) :
    ∀ a ∈ f.operands.filterMap part?, P a := by
  intro a ha
  obtain ⟨o, ho, ha⟩ := List.mem_filterMap.mp ha
  obtain ⟨i, hi, ho⟩ := List.mem_flatMap.mp ho
  exact hpart o a (hf.code i hi o ho) ha

theorem hasRegister (hf : f.Numbered) :
    ∀ id ∈ f.operands.filterMap (·.virtualReg?), f.HasRegister id := by
  refine hf.of_mem_filterMap fun o id ho hid => ?_
  obtain ⟨kind, ty, regClass⟩ := o
  cases kind <;> cases hid
  exact ho

/-- **The ids of a numbered function are apart.** -/
theorem idsApart (hf : f.Numbered) : f.IdsApart := by
  obtain ⟨hparams, hslots, hdisjoint⟩ := List.nodup_append'.mp hf.drawn.nodup
  refine ⟨hparams, hslots, hdisjoint, fun id hid hparam => ?_, fun id hid hslot => ?_,
    fun id hid => ?_, ?_, ?_, ?_⟩
  · exact (hf.hasRegister id hid).undeclared (List.mem_append_left _ hparam)
  · exact (hf.hasRegister id hid).undeclared (List.mem_append_right _ hslot)
  · rcases List.mem_append.mp hid with hid | hid
    · exact hf.drawn.used id hid
    · exact (hf.hasRegister id hid).used
  · refine hf.of_mem_filterMap fun o id ho hid => ?_
    obtain ⟨kind, ty, regClass⟩ := o
    cases kind <;> cases hid
    exact ho
  · refine hf.of_mem_filterMap fun o base ho hbase => ?_
    obtain ⟨kind, ty, regClass⟩ := o
    cases kind <;> cases hbase
    exact ho
  · refine hf.of_mem_filterMap fun o slot ho hslot => ?_
    obtain ⟨kind, ty, regClass⟩ := o
    cases kind <;> cases hslot
    obtain ⟨object, hobject, hslot⟩ := List.mem_map.mp ho
    exact List.any_eq_true.mpr ⟨object, hobject, by simpa using hslot⟩

end Function.Numbered

/-! ## Parameters and virtual registers -/

/-- Where the ids of parameters are `ids`, an operand that is a parameter has one of them, and a virtual
register has none. -/
structure Operand.Proper (ids : List RegId) (o : Operand) : Prop where
  virtualReg : ∀ id, o.kind = .virtualReg id → id ∉ ids
  parameter : ∀ id, o.kind = .parameter id → id ∈ ids

def Instruction.Proper (ids : List RegId) (i : Instruction) : Prop := ∀ o ∈ i.operands, o.Proper ids

theorem Operand.proper_of_isPlace {ids : List RegId} {o : Operand} (h : o.isPlace) :
    o.Proper ids := by
  obtain ⟨kind, ty, regClass⟩ := o
  cases kind with
  | memory base offset => exact ⟨nofun, nofun⟩
  | stack slot offset => exact ⟨nofun, nofun⟩
  | _ => cases h

/-- In a numbered function, what is read as a parameter is one, and no virtual register is. -/
theorem Function.Numbered.proper {f : Function} (hf : f.Numbered) : f.All (·.Proper f.paramIds) := by
  refine fun i hi o ho => ⟨fun id hid hparam => ?_, fun id hid => ?_⟩
  · have hreg := hf.code i hi o ho
    rw [Operand.Numbered, hid] at hreg
    exact hreg.undeclared (List.mem_append_left _ hparam)
  · have hparam := hf.code i hi o ho
    rwa [Operand.Numbered, hid] at hparam

end Retarget.Machine
