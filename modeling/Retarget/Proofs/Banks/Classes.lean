import Retarget.Proofs.Banks.Passes
import Retarget.Proofs.Convention.Allocated

/-!
# The register file of an id

The class of an id is chosen where the id is first named, and every later operand gets the same.
Which file it is of, general-purpose or floating-point, can be read off the code alone
(`Function.Resides`): that of the type, with two exceptions.  A value that is loaded back from the
frame goes to the file of the register that was last stored at that place, in the order of the text,
and an operation on floating-point numbers takes its operands for such, whatever their types.  So the
classes that the scan chooses are of the files in which the ids reside (`fits_selectClasses`), and
these are the files of the types in code without such exceptions (`resides_of_agrees`).
-/

namespace Retarget.Machine

/-! ## Stored and reloaded values -/

namespace Instruction

/-- The ids of the registers among the operands; the base of a memory operand is apart. -/
def values (i : Instruction) : List RegId := i.operands.filterMap (·.value?)

/-- The first register of the instruction that has the id, and its position. -/
def names? (i : Instruction) (id : RegId) : Option (Operand × Nat) :=
  i.operands.zipIdx.find? (·.1.value? == some id)

/-- The place in the frame that the instruction names. -/
def framePlace? (i : Instruction) : Option (Slot × Int) := i.operands.findSome? (·.frameByte?)

def loaded? (i : Instruction) : Option RegId :=
  if i.isLoad then i.def?.bind (·.value?) else none

/-- The id that the instruction stores at a place in the frame. -/
def stored? (place : Slot × Int) (i : Instruction) : Option RegId :=
  if i.isStore ∧ i.framePlace? = some place then (i.operands.find? (·.isRegLike)).bind (·.value?)
  else none

end Instruction

/-- The id that was last stored at a place in the frame, in the order of the text. -/
def lastStored (place : Slot × Int) (before : List Instruction) : Option RegId :=
  before.reverse.findSome? (·.stored? place)

/-- The id that the instruction loads from a place in the frame, and the one that was stored there
last. -/
def Instruction.reloads? (before : List Instruction) (i : Instruction) :
    Option (RegId × RegId) := do
  let id ← i.loaded?
  let place ← i.framePlace?
  let stored ← lastStored place before
  return (id, stored)

theorem Instruction.names?_eq_some {i : Instruction} {id : RegId} {o : Operand} {k : Nat}
    (h : i.names? id = some (o, k)) : (o, k) ∈ i.operands.zipIdx ∧ o.value? = some id := by
  have hid := List.find?_some h
  exact ⟨List.mem_of_find?_eq_some h, eq_of_beq hid⟩

namespace Function

variable {f : Function} {id : RegId} {before before' : List Instruction} {i i' : Instruction}

/-- No operand before the instruction is a register with the id, and it is not that of a
parameter. -/
structure FirstNames (f : Function) (id : RegId) (before : List Instruction) (i : Instruction) :
    Prop where
  split : ∃ after, f.instructions = before ++ i :: after
  fresh : id ∉ f.paramIds ++ before.flatMap (·.values)
  named : id ∈ i.values

/-- Whether the register that an id gets is a floating-point register, by the code. -/
inductive Resides (f : Function) : RegId → Bool → Prop
  /-- A parameter is where it arrives. -/
  | parameter {p : Parameter} (hp : p ∈ f.params) : f.Resides p.id p.isFloat
  /-- A value that is loaded back follows the register that was stored. -/
  | reloaded {id stored : RegId} {before : List Instruction} {i : Instruction} {isFloat : Bool}
      (first : f.FirstNames id before i) (reload : i.reloads? before = some (id, stored))
      (source : f.Resides stored isFloat) : f.Resides id isFloat
  /-- Any other value goes by its type and by the operation that names it first. -/
  | typed {id : RegId} {before : List Instruction} {i : Instruction} {o : Operand} {k : Nat}
      (first : f.FirstNames id before i) (other : ∀ stored, i.reloads? before ≠ some (id, stored))
      (ho : i.names? id = some (o, k)) : f.Resides id (i.isFloatPosition k o)

theorem FirstNames.unique (h : f.FirstNames id before i) (h' : f.FirstNames id before' i') :
    before = before' ∧ i = i' := by
  have hnot : ∀ {bs : List Instruction} {j : Instruction} {l : List Instruction},
      id ∉ f.paramIds ++ (bs ++ j :: l).flatMap (·.values) → id ∉ j.values := by
    intro bs j l hfresh hmem
    exact hfresh (by simp [hmem])
  obtain ⟨after, hsplit⟩ := h.split
  obtain ⟨after', hsplit'⟩ := h'.split
  rcases List.append_eq_append_iff.mp (hsplit.symm.trans hsplit') with
    ⟨l, hbefore, hrest⟩ | ⟨l, hbefore, hrest⟩
  · cases l with
    | nil =>
      cases hrest
      exact ⟨by simpa using hbefore.symm, rfl⟩
    | cons j l =>
      cases hrest
      exact absurd h.named (hnot (hbefore ▸ h'.fresh))
  · cases l with
    | nil =>
      cases hrest
      exact ⟨by simpa using hbefore, rfl⟩
    | cons j l =>
      cases hrest
      exact absurd h'.named (hnot (hbefore ▸ h.fresh))

/-- What is loaded back is of the kind of what was stored, and operations on floating-point numbers
have such operands, and no others do. -/
structure Agrees (kinds : List Bool) (f : Function) : Prop where
  reloads : ∀ before i after, f.instructions = before ++ i :: after → ∀ id stored,
    i.reloads? before = some (id, stored) → kinds[id]? = kinds[stored]?
  positions : ∀ i ∈ f.instructions, ∀ o k, (o, k) ∈ i.operands.zipIdx → o.value?.isSome →
    i.isFloatPosition k o = o.ty.isFloat

/-- **Where operations and reloads agree with the types, so do the files.** -/
theorem resides_of_agrees {kinds : List Bool} {isFloat : Bool} (hf : f.Kinded kinds)
    (hagrees : f.Agrees kinds) (h : f.Resides id isFloat) : kinds[id]? = some isFloat := by
  induction h with
  | parameter hp => exact (hf.incoming _ hp).1
  | reloaded first reload _ ih =>
    obtain ⟨after, hsplit⟩ := first.split
    exact (hagrees.reloads _ _ after hsplit _ _ reload).trans ih
  | @typed id before i o k first _ ho =>
    obtain ⟨after, hsplit⟩ := first.split
    obtain ⟨hmem, hid⟩ := Instruction.names?_eq_some ho
    have hi : i ∈ f.instructions := by simp [hsplit]
    rw [hagrees.positions i hi o k hmem (by simp [hid])]
    exact ((hf.code i hi).operands o (List.fst_mem_of_mem_zipIdx hmem)).value id hid

/-- The class is of the file that the id resides in. -/
def Fits (t : Target) (f : Function) (id : RegId) (c : RegClass) : Prop :=
  ∃ bits isFloat, c = t.registers.classFor bits isFloat ∧
    ∀ isFloat', f.Resides id isFloat' ↔ isFloat' = isFloat

/-- What loads define is in registers. -/
def LoadsRegisters (f : Function) : Prop :=
  ∀ i ∈ f.instructions, i.isLoad → ∀ d, i.def? = some d → d.isMemory = false

end Function

theorem Operand.unallocated?_eq_value? {o : Operand} (h : o.isMemory = false) :
    o.unallocated? = o.value? := by
  obtain ⟨kind, ty, regClass⟩ := o
  cases kind <;> first | rfl | cases h

theorem Operand.isMemory_of_value? {o : Operand} {id : RegId} (h : o.value? = some id) :
    o.isMemory = false := by
  obtain ⟨kind, ty, regClass⟩ := o
  cases kind <;> first | rfl | cases h

/-! ## The scan -/

theorem mapAccum_cons {σ α β : Type} (step : σ → α → σ × β) (s : σ) (a : α) (as : List α) :
    mapAccum step s (a :: as) = ((mapAccum step (step s a).1 as).1,
      (step s a).2 :: (mapAccum step (step s a).1 as).2) :=
  rfl

namespace Classes

variable {t : Target} {f : Function} {cs : Classes} {seen seen' : List RegId} {id : RegId}
  {c : RegClass} {i : Instruction} {before : List Instruction} {kinds : List Bool}

/-- The ids seen so far have classes, and these are of the files in which the ids reside. -/
structure Knows (t : Target) (f : Function) (seen : List RegId) (cs : Classes) : Prop where
  fits : ∀ id c, cs.ofReg.lookup id = some c → f.Fits t id c
  seen : ∀ id, (cs.ofReg.lookup id).isSome ↔ id ∈ seen

theorem Knows.congr (h : cs.Knows t f seen) (hseen : ∀ id, id ∈ seen ↔ id ∈ seen') :
    cs.Knows t f seen' :=
  ⟨h.fits, fun id => (h.seen id).trans (hseen id)⟩

theorem Knows.choose (h : cs.Knows t f seen) (hc : id ∉ seen → f.Fits t id c) :
    (cs.choose id c).1.Knows t f (seen ++ [id]) ∧ f.Fits t id (cs.choose id c).2 := by
  rw [Classes.choose]
  cases hlookup : cs.ofReg.lookup id with
  | some c' =>
    have hid : id ∈ seen := (h.seen id).mp (by simp [hlookup])
    refine ⟨h.congr fun id' => ?_, h.fits id c' hlookup⟩
    rw [List.mem_append, List.mem_singleton]
    exact ⟨.inl, fun h => h.elim (fun hid => hid) fun heq => heq ▸ hid⟩
  | none =>
    have hfits := hc fun hid => by simpa [hlookup] using (h.seen id).mpr hid
    refine ⟨⟨fun id' c' hc' => ?_, fun id' => ?_⟩, hfits⟩
    · rw [List.lookup_cons] at hc'
      split at hc'
      · next heq =>
        cases hc'
        rw [eq_of_beq heq]
        exact hfits
      · exact h.fits id' c' hc'
    · rw [List.lookup_cons, List.mem_append, List.mem_singleton, ← h.seen id']
      split
      · next heq => simp [eq_of_beq heq]
      · next heq => simp [show id' ≠ id from fun h => by simp [h] at heq]

theorem ofSlot_choose (cs : Classes) (id : RegId) (c : RegClass) :
    (cs.choose id c).1.ofSlot = cs.ofSlot := by
  rw [choose]
  split <;> rfl

/-- An operand that is a register has a class of its file. -/
def IsClassed (t : Target) (f : Function) (o : Operand) : Prop :=
  ∀ id, o.value? = some id → ∃ c, o.regClass = some c ∧ f.Fits t id c

theorem visitOperand_of_value? {o : Operand} {k : Nat} (h : o.value? = some id) :
    visitOperand t i cs (o, k) =
      let chosen := cs.choose id (t.registers.classFor o.size (i.isFloatPosition k o))
      (chosen.1, { o with regClass := some chosen.2 }) := by
  have hmemory := Operand.isMemory_of_value? h
  rw [visitOperand, Operand.unallocated?_eq_value? hmemory, h]
  dsimp only
  rw [hmemory]
  rfl

theorem visitOperand_of_value?_eq_none (t : Target) (i : Instruction) (cs : Classes) {o : Operand}
    (k : Nat) (h : o.value? = none) :
    (visitOperand t i cs (o, k)).1 = cs ∧
      (o.isMemory = false → (visitOperand t i cs (o, k)).2 = o) := by
  rw [visitOperand]
  cases hmemory : o.isMemory with
  | true =>
    dsimp only
    split
    · exact ⟨rfl, fun h => by cases h⟩
    · rw [if_pos rfl]
      exact ⟨rfl, fun h => by cases h⟩
  | false =>
    rw [Operand.unallocated?_eq_value? hmemory, h]
    exact ⟨rfl, fun _ => rfl⟩

/-- How an operand looks after the scan. -/
structure Visited (t : Target) (f : Function) (o o' : Operand) : Prop where
  kind_eq : o'.kind = o.kind
  classed : IsClassed t f o'
  kept : o.value? = none → o.isMemory = false → o'.regClass = o.regClass

/-- The operands of an instruction get classes of their files, if this holds of those that are the
first with a new id. -/
theorem Knows.visitOperands {es : List (Operand × Nat)} (h : cs.Knows t f seen)
    (hnew : ∀ id ∉ seen, ∀ o k, es.find? (·.1.value? == some id) = some (o, k) →
      f.Fits t id (t.registers.classFor o.size (i.isFloatPosition k o))) :
    (mapAccum (visitOperand t i) cs es).1.Knows t f (seen ++ es.filterMap (·.1.value?)) ∧
      (mapAccum (visitOperand t i) cs es).1.ofSlot = cs.ofSlot ∧
      List.Forall₂ (fun e o => Visited t f e.1 o) es (mapAccum (visitOperand t i) cs es).2 := by
  induction es generalizing cs seen with
  | nil => exact ⟨by simpa [mapAccum] using h, rfl, .nil⟩
  | cons e es ih =>
    obtain ⟨o, k⟩ := e
    cases hid : o.value? with
    | none =>
      obtain ⟨hsame, hkept⟩ := visitOperand_of_value?_eq_none t i cs k hid
      obtain ⟨hknows, hslots, hvisited⟩ := ih h fun id' hnot o' k' hfind =>
        hnew id' hnot o' k' ((List.find?_cons_of_neg (by simp [hid])).trans hfind)
      have hkind := kind_visitOperand (t := t) i cs (o, k)
      have hvalues : ((o, k) :: es).filterMap (·.1.value?) = es.filterMap (·.1.value?) :=
        List.filterMap_cons_none hid
      rw [hvalues, mapAccum_cons, hsame]
      refine ⟨hknows, hslots, .cons ⟨hkind, fun id hid' => ?_, fun _ hm => by rw [hkept hm]⟩
        hvisited⟩
      rw [Operand.value?, hkind] at hid'
      cases hid.symm.trans hid'
    | some id =>
      have hvalues : ((o, k) :: es).filterMap (·.1.value?) = id :: es.filterMap (·.1.value?) :=
        List.filterMap_cons_some hid
      rw [hvalues, mapAccum_cons, visitOperand_of_value? hid]
      obtain ⟨hchoose, hfits⟩ := h.choose fun hnot =>
        hnew id hnot o k (List.find?_cons_of_pos (by simp [hid]))
      obtain ⟨hknows, hslots, hvisited⟩ := ih hchoose fun id' hnot o' k' hfind => by
        rw [List.mem_append, List.mem_singleton, not_or] at hnot
        refine hnew id' hnot.1 o' k' ((List.find?_cons_of_neg ?_).trans hfind)
        simpa [hid] using Ne.symm hnot.2
      refine ⟨hknows.congr (by simp), hslots.trans (ofSlot_choose ..), .cons ⟨rfl, ?_, ?_⟩
        hvisited⟩
      · intro id' hid'
        cases hid.symm.trans hid'
        exact ⟨_, rfl, hfits⟩
      · intro hnone
        cases hid.symm.trans hnone

/-- What holds of a scan behind the instructions `before`. -/
structure Behind (t : Target) (f : Function) (before : List Instruction) (cs : Classes) : Prop where
  knows : cs.Knows t f (f.paramIds ++ before.flatMap (·.values))
  slots : ∀ place, Option.Rel (f.Fits t) (lastStored place before) (cs.ofSlot.lookup place)

/-- A load from the frame inherits the class of what was stored last, and other instructions inherit
nothing. -/
theorem Behind.inherit_cases (h : cs.Behind t f before)
    (hi : i.isLoad → ∀ d, i.def? = some d → d.isMemory = false) :
    cs.inherit i = cs ∧ i.reloads? before = none ∨
      ∃ id stored c, i.reloads? before = some (id, stored) ∧ cs.inherit i = (cs.choose id c).1 ∧
        f.Fits t stored c := by
  cases hload : i.isLoad with
  | false =>
    exact .inl ⟨by simp [inherit, hload],
      by simp [Instruction.reloads?, Instruction.loaded?, hload]⟩
  | true =>
    have hloaded : i.def?.bind (·.unallocated?) = i.loaded? := by
      rw [Instruction.loaded?, if_pos hload]
      cases hdef : i.def? with
      | none => rfl
      | some d => exact Operand.unallocated?_eq_value? (hi hload d hdef)
    rw [inherit, if_pos hload, hloaded, ← Instruction.framePlace?]
    cases hid : i.loaded? with
    | none =>
      refine .inl ⟨?_, by simp [Instruction.reloads?, hid]⟩
      split <;> simp_all
    | some id =>
      cases hplace : i.framePlace? with
      | none => exact .inl ⟨rfl, by simp [Instruction.reloads?, hplace]⟩
      | some place =>
        have hslot := h.slots place
        rw [Option.bind_some]
        generalize hstored : lastStored place before = stored at hslot
        generalize hclass : cs.ofSlot.lookup place = class? at hslot
        cases hslot with
        | none => exact .inl ⟨rfl, by simp [Instruction.reloads?, hplace, hstored]⟩
        | @some stored c hfits =>
          exact .inr ⟨id, stored, c, by simp [Instruction.reloads?, hid, hplace, hstored], rfl,
            hfits⟩

/-! ### New ids -/

section New

variable {after : List Instruction} {o : Operand}

theorem firstNames_of_not_mem (hsplit : f.instructions = before ++ i :: after)
    (hnew : id ∉ f.paramIds ++ before.flatMap (·.values)) (ho : o ∈ i.operands)
    (hid : o.value? = some id) : f.FirstNames id before i :=
  ⟨⟨after, hsplit⟩, hnew, List.mem_filterMap.mpr ⟨o, ho, hid⟩⟩

theorem FirstNames.not_param {p : Parameter} (h : f.FirstNames p.id before i) : p ∉ f.params :=
  fun hp => h.fresh (List.mem_append_left _ (List.mem_map_of_mem hp))

theorem exists_of_reloads? {stored : RegId} (h : i.reloads? before = some (id, stored)) :
    ∃ o ∈ i.operands, o.value? = some id := by
  obtain ⟨id', hloaded, h⟩ := Option.bind_eq_some_iff.mp h
  obtain ⟨place, -, h⟩ := Option.bind_eq_some_iff.mp h
  obtain ⟨stored', -, h⟩ := Option.bind_eq_some_iff.mp h
  cases h
  rw [Instruction.loaded?] at hloaded
  split at hloaded
  · obtain ⟨d, hd, hid⟩ := Option.bind_eq_some_iff.mp hloaded
    exact ⟨d, by simp [Instruction.operands_of_def? hd], hid⟩
  · cases hloaded

/-- A new value that is loaded back resides where the stored one does. -/
theorem fits_reloaded {stored : RegId} (hsplit : f.instructions = before ++ i :: after)
    (hnew : id ∉ f.paramIds ++ before.flatMap (·.values))
    (hreload : i.reloads? before = some (id, stored)) (hc : f.Fits t stored c) : f.Fits t id c := by
  obtain ⟨o, ho, hid⟩ := exists_of_reloads? hreload
  have hfirst := firstNames_of_not_mem hsplit hnew ho hid
  obtain ⟨bits, isFloat, rfl, hresides⟩ := hc
  refine ⟨bits, isFloat, rfl, fun isFloat' => ⟨fun h => ?_, fun h =>
    .reloaded hfirst hreload ((hresides isFloat').mpr h)⟩⟩
  cases h with
  | parameter hp => exact absurd hp (FirstNames.not_param hfirst)
  | reloaded first reload source =>
    obtain ⟨rfl, rfl⟩ := hfirst.unique first
    cases hreload.symm.trans reload
    exact (hresides isFloat').mp source
  | typed first other =>
    obtain ⟨rfl, rfl⟩ := hfirst.unique first
    exact absurd hreload (other stored)

/-- A new value that is not loaded back resides where its type and its first operation say. -/
theorem fits_typed (hsplit : f.instructions = before ++ i :: after)
    (hnew : id ∉ f.paramIds ++ before.flatMap (·.values))
    (hother : ∀ stored, i.reloads? before ≠ some (id, stored)) {k : Nat}
    (ho : i.names? id = some (o, k)) (bits : Nat) :
    f.Fits t id (t.registers.classFor bits (i.isFloatPosition k o)) := by
  obtain ⟨hmem, hid⟩ := Instruction.names?_eq_some ho
  have hfirst := firstNames_of_not_mem hsplit hnew (List.fst_mem_of_mem_zipIdx hmem) hid
  refine ⟨bits, _, rfl, fun isFloat' => ⟨fun h => ?_, fun h => h ▸ .typed hfirst hother ho⟩⟩
  cases h with
  | parameter hp => exact absurd hp (FirstNames.not_param hfirst)
  | reloaded first reload =>
    obtain ⟨rfl, rfl⟩ := hfirst.unique first
    exact absurd reload (hother _)
  | typed first other ho' =>
    obtain ⟨rfl, rfl⟩ := hfirst.unique first
    cases ho.symm.trans ho'
    rfl

end New

/-! ### Steps -/

/-- The register that an instruction stores has a class behind it, unless it is a physical one. -/
theorem class_of_visited {os os' : List Operand} (h : List.Forall₂ (Visited t f) os os')
    (hos : ∀ o ∈ os, o.regClass = none) :
    Option.Rel (f.Fits t) ((os.find? (·.isRegLike)).bind (·.value?))
      ((os'.find? (·.isRegLike)).bind (·.regClass)) := by
  induction h with
  | nil => exact .none
  | @cons o o' os os' hfirst _ ih =>
    obtain ⟨ho, hos⟩ := List.forall_mem_cons.mp hos
    have hlike : o'.isRegLike = o.isRegLike := by
      rw [Operand.isRegLike, Operand.isRegLike, hfirst.kind_eq]
    have hvalue : o'.value? = o.value? := by rw [Operand.value?, Operand.value?, hfirst.kind_eq]
    cases hreg : o.isRegLike with
    | false =>
      rw [List.find?_cons_of_neg (by simp [hreg]), List.find?_cons_of_neg (by simp [hlike, hreg])]
      exact ih hos
    | true =>
      rw [List.find?_cons_of_pos (by simp [hreg]), List.find?_cons_of_pos (by simp [hlike, hreg]),
        Option.bind_some, Option.bind_some]
      cases hid : o.value? with
      | some id =>
        obtain ⟨c, hc, hfits⟩ := hfirst.classed id (hvalue.trans hid)
        rw [hc]
        exact .some hfits
      | none =>
        have hmemory : o.isMemory = false := by
          obtain ⟨kind, ty, regClass⟩ := o
          cases kind <;> first | rfl | cases hreg
        rw [hfirst.kept hid hmemory, ho]
        exact .none

theorem framePlace?_of_visited {os os' : List Operand} (h : List.Forall₂ (Visited t f) os os') :
    os'.findSome? (·.frameByte?) = os.findSome? (·.frameByte?) := by
  induction h with
  | nil => rfl
  | @cons o o' os os' hfirst _ ih =>
    have hbyte : o'.frameByte? = o.frameByte? := by
      rw [Operand.frameByte?, Operand.frameByte?, hfirst.kind_eq]
    rw [List.findSome?_cons, List.findSome?_cons, hbyte, ih]

theorem lastStored_concat (place : Slot × Int) (before : List Instruction) (i : Instruction) :
    lastStored place (before ++ [i]) = (i.stored? place).or (lastStored place before) := by
  rw [lastStored, lastStored, List.reverse_append, List.reverse_singleton, List.singleton_append,
    List.findSome?_cons]
  cases i.stored? place <;> rfl

theorem ofReg_record (cs : Classes) (i : Instruction) : (cs.record i).ofReg = cs.ofReg := by
  rw [record]
  split
  · split <;> rfl
  · rfl

theorem Knows.record (h : cs.Knows t f seen) (i : Instruction) : (cs.record i).Knows t f seen :=
  ⟨ofReg_record cs i ▸ h.fits, ofReg_record cs i ▸ h.seen⟩

theorem slots_record (hslots : ∀ place, Option.Rel (f.Fits t) (lastStored place before)
      (cs.ofSlot.lookup place))
    {os : List Operand} (hos : List.Forall₂ (Visited t f) i.operands os)
    (hi : ∀ o ∈ i.operands, o.regClass = none) (place : Slot × Int) :
    Option.Rel (f.Fits t) (lastStored place (before ++ [i]))
      ((cs.record (i.withOperands os)).ofSlot.lookup place) := by
  have hclass := class_of_visited hos hi
  have hplace : (i.withOperands os).operands.findSome? (·.frameByte?) = i.framePlace? :=
    framePlace?_of_visited hos
  have hflag : (i.withOperands os).isStore = i.isStore := rfl
  rw [lastStored_concat, record, hflag, hplace]
  cases hstore : i.isStore with
  | false =>
    rw [Instruction.stored?, if_neg (by simp [hstore]), Option.none_or]
    exact hslots place
  | true =>
    rw [if_pos rfl, Instruction.withOperands]
    cases hframe : i.framePlace? with
    | none =>
      rw [Instruction.stored?, if_neg (by simp [hframe]), Option.none_or]
      exact hslots place
    | some place' =>
      rw [Instruction.stored?, hframe]
      generalize (i.operands.find? (·.isRegLike)).bind (·.value?) = stored at hclass
      dsimp only
      generalize (os.find? (·.isRegLike)).bind (·.regClass) = class? at hclass
      cases hclass with
      | none =>
        rw [ite_self, Option.none_or]
        exact hslots place
      | @some id c hfits =>
        dsimp only
        by_cases hsame : place' = place
        · rw [if_pos ⟨hstore, congrArg some hsame⟩, hsame, List.lookup_cons_self]
          exact .some hfits
        · rw [if_neg (by simp [hsame]), Option.none_or, List.lookup_cons,
            beq_false_of_ne (Ne.symm hsame)]
          exact hslots place

/-- The classes of an instruction are of the files in which its ids reside. -/
theorem Behind.visitInstruction {after : List Instruction} (h : cs.Behind t f before)
    (hf : f.Kinded kinds) (hloads : f.LoadsRegisters)
    (hsplit : f.instructions = before ++ i :: after) :
    (visitInstruction t cs i).1.Behind t f (before ++ [i]) ∧
      ∀ o ∈ (visitInstruction t cs i).2.operands, IsClassed t f o := by
  have hmem : i ∈ f.instructions := by simp [hsplit]
  have hi := hf.code i hmem
  have hall (seen : List RegId) (hseen : f.paramIds ++ before.flatMap (·.values) ⊆ seen)
      (hreload : ∀ id stored, i.reloads? before = some (id, stored) → id ∈ seen) :
      ∀ id ∉ seen, ∀ o k, i.names? id = some (o, k) →
        f.Fits t id (t.registers.classFor o.size (i.isFloatPosition k o)) := by
    intro id hnot o k ho
    exact fits_typed hsplit (fun hmem => hnot (hseen hmem))
      (fun stored hreloads => hnot (hreload id stored hreloads)) ho _
  have hvalues : i.operands.zipIdx.filterMap (·.1.value?) = i.values :=
    (List.filterMap_map (f := Prod.fst) (g := Operand.value?)).symm.trans
      (congrArg (List.filterMap Operand.value?) (List.zipIdx_map_fst 0 i.operands))
  -- both ways, the ids of the instruction are those that are seen in addition
  have hvisited : ∃ seen, (cs.inherit i).Knows t f seen ∧ (cs.inherit i).ofSlot = cs.ofSlot ∧
      (∀ id ∉ seen, ∀ o k, i.names? id = some (o, k) →
        f.Fits t id (t.registers.classFor o.size (i.isFloatPosition k o))) ∧
      ∀ id, id ∈ seen ++ i.values ↔
        id ∈ f.paramIds ++ (before ++ [i]).flatMap (·.values) := by
    rcases h.inherit_cases (hloads i hmem) with ⟨hsame, hnone⟩ | ⟨id, stored, c, hreload, heq, hfits⟩
    · rw [hsame]
      refine ⟨_, h.knows, rfl, hall _ (List.Subset.refl _) ?_, by simp⟩
      exact fun id stored hreload => nomatch hnone.symm.trans hreload
    · rw [heq]
      refine ⟨_, (h.knows.choose fun hnew => fits_reloaded hsplit hnew hreload hfits).1,
        ofSlot_choose .., hall _ (List.subset_append_left _ _) ?_, fun id' => ?_⟩
      · intro id' stored' hreload'
        cases hreload.symm.trans hreload'
        simp
      · obtain ⟨o, ho, hid⟩ := exists_of_reloads? hreload
        have hvalue : id ∈ i.values := List.mem_filterMap.mpr ⟨o, ho, hid⟩
        simp only [List.mem_append, List.flatMap_append, List.flatMap_singleton,
          List.mem_singleton]
        constructor
        · rintro (((h | h) | rfl) | h) <;> simp_all
        · rintro (h | h | h) <;> simp_all
  obtain ⟨seen, hknows, hslots, hnew, hseen⟩ := hvisited
  obtain ⟨hknows', hslots', hoperands⟩ := hknows.visitOperands hnew
  rw [hvalues] at hknows'
  have hoperands : List.Forall₂ (Visited t f) i.operands
      (Classes.visitInstruction t cs i).2.operands := by
    have hfst : i.operands.zipIdx.map Prod.fst = i.operands := List.zipIdx_map_fst 0 _
    rw [← hfst, List.forall₂_map_left_iff]
    exact hoperands
  refine ⟨⟨?_, fun place => ?_⟩, fun o ho => ?_⟩
  · exact (hknows'.record _).congr hseen
  · exact slots_record (fun place => by rw [hslots', hslots]; exact h.slots place) hoperands
      (fun o ho => (hi.operands o ho).unclassed) place
  · obtain ⟨before', after', hos⟩ := List.append_of_mem ho
    obtain ⟨_, o', _, -, -, hvisited, -⟩ := exists_cons_of_forall₂_cons (hos ▸ hoperands)
    exact hvisited.classed

theorem Behind.visitInstructions {is after : List Instruction} (h : cs.Behind t f before)
    (hf : f.Kinded kinds) (hloads : f.LoadsRegisters)
    (hsplit : f.instructions = before ++ (is ++ after)) :
    (mapAccum (Classes.visitInstruction t) cs is).1.Behind t f (before ++ is) ∧
      ∀ i ∈ (mapAccum (Classes.visitInstruction t) cs is).2, ∀ o ∈ i.operands, IsClassed t f o := by
  induction is generalizing cs before with
  | nil => exact ⟨by simpa [mapAccum] using h, by simp [mapAccum]⟩
  | cons i is ih =>
    obtain ⟨hfirst, hclassed⟩ := h.visitInstruction hf hloads hsplit
    obtain ⟨hrest, hclassed'⟩ := ih hfirst (by simp [hsplit])
    rw [mapAccum_cons]
    exact ⟨by simpa using hrest, List.forall_mem_cons.mpr ⟨hclassed, hclassed'⟩⟩

theorem Behind.visitBlocks {blocks : List Block} (h : cs.Behind t f before) (hf : f.Kinded kinds)
    (hloads : f.LoadsRegisters)
    (hsplit : f.instructions = before ++ blocks.flatMap (·.instructions)) :
    ∀ b ∈ (mapAccum (visitBlock t) cs blocks).2, ∀ i ∈ b.instructions, ∀ o ∈ i.operands,
      IsClassed t f o := by
  induction blocks generalizing cs before with
  | nil => simp [mapAccum]
  | cons b blocks ih =>
    rw [List.flatMap_cons] at hsplit
    obtain ⟨hfirst, hclassed⟩ := h.visitInstructions hf hloads hsplit
    rw [mapAccum_cons]
    refine List.forall_mem_cons.mpr ⟨hclassed, ih hfirst ?_⟩
    rw [hsplit, List.append_assoc]

theorem behind_start (hf : f.Kinded kinds) : Behind t f [] {
    ofReg := f.params.reverse.map fun p => (p.id, t.registers.classFor p.ty.bits p.isFloat) } := by
  refine ⟨⟨fun id c hc => ?_, fun id => ?_⟩, fun place => .none⟩
  · obtain ⟨p, hp, heq⟩ := List.mem_map.mp (mem_of_lookup_eq_some hc)
    cases heq
    have hp := List.mem_reverse.mp hp
    refine ⟨_, _, rfl, fun isFloat => ⟨fun h => ?_, fun h => h ▸ .parameter hp⟩⟩
    generalize hid : p.id = id at h
    cases h with
    | @parameter p' hp' =>
      have hsame := (hf.incoming p hp).1
      rw [hid, (hf.incoming p' hp').1] at hsame
      exact Option.some.inj hsame
    | reloaded first => exact absurd hp (FirstNames.not_param (hid ▸ first))
    | typed first => exact absurd hp (FirstNames.not_param (hid ▸ first))
  · rw [List.flatMap_nil, List.append_nil, List.lookup_isSome_iff]
    simp only [List.map_reverse, List.mem_reverse, List.mem_map, Function.paramIds]
    constructor
    · rintro ⟨_, ⟨p, hp, rfl⟩, hid⟩
      exact ⟨p, hp, (eq_of_beq hid).symm⟩
    · rintro ⟨p, hp, rfl⟩
      exact ⟨_, ⟨p, hp, rfl⟩, beq_self_eq_true _⟩

end Classes

/-- **The classes that are selected are of the files in which the ids reside.** -/
theorem Function.fits_selectClasses {t : Target} {f : Function} {kinds : List Bool}
    (hf : f.Kinded kinds) (hloads : f.LoadsRegisters) :
    (f.selectClasses t).All fun i => ∀ o ∈ i.operands, Classes.IsClassed t f o := by
  intro i hi
  obtain ⟨b, hb, hi⟩ := mem_instructions.mp hi
  exact (Classes.behind_start hf).visitBlocks hf hloads rfl b hb i hi

end Retarget.Machine
