import Retarget.Proofs.ControlFlow
import Retarget.Proofs.Convention.Arguments
import Retarget.Proofs.Lowering.Invariants
import Retarget.Proofs.Lowering.Temporaries
import Retarget.Proofs.Shape.Basic

/-!
# What stands behind a register

Lowering reads three kinds of registers: new ones, which it writes when it creates them, those of
parameters, and those of temporaries, which it may read long before it comes to the definition.  A
register of a temporary is written at the end if the definition is a scalar.  For a temporary of
another kind, the address or the pieces must be known where it is used; otherwise a register is
created that no instruction ever writes.

`D` stands for the temporaries that are defined as scalars somewhere in the function, and `L` for
those whose pieces are loaded into registers.  The invariant (`State.Backed`) is that each register
read so far is one of a parameter, is written so far, or belongs to a temporary of `D`.
-/

namespace Retarget

namespace Machine.Instruction

variable {op : GenericOp} {dest : Operand} {sources : List Operand} {id : RegId}

theorem readIds_generic (hop : (generic op (dest :: sources)).isEffect = false)
    (hdest : dest.isMemory = false) :
    (generic op (dest :: sources)).readIds = sources.filterMap (·.unallocated?) := by
  have hdef : (generic op (dest :: sources)).hasDef = true := by
    rw [hasDef, hop]
    rfl
  rw [readIds, hdef]
  simp [generic, make, operand?, hdest]

theorem isEffect_ite {p : Prop} [Decidable p] {op' : GenericOp} {operands : List Operand}
    (h : (generic op operands).isEffect = false) (h' : (generic op' operands).isEffect = false) :
    (generic (if p then op else op') operands).isEffect = false := by
  split
  · exact h
  · exact h'

theorem mem_writtenIds_generic (hop : (generic op (dest :: sources)).isEffect = false)
    (hdest : dest.isMemory = false) (hid : dest.unallocated? = some id) :
    id ∈ (generic op (dest :: sources)).writtenIds := by
  have hdef : (generic op (dest :: sources)).hasDef = true := by
    rw [hasDef, hop]
    rfl
  rw [writtenIds, def?, hdef]
  simp [generic, make, hdest, hid]

end Machine.Instruction

namespace Lowering

open Machine

variable {D L : Ir.TempId → Prop} {c : Scope} {s s' : State} {α β : Type}
  {P : State → α → Prop} {Q : State → β → Prop}

/-! ## States -/

namespace State

def emitted (s : State) : List Instruction := s.function.instructions ++ s.code.toList

/-- Some instruction so far writes the register. -/
def Writes (s : State) (id : RegId) : Prop := ∃ i ∈ s.emitted, id ∈ i.writtenIds

/-- The register is one of a parameter or written so far, or a scalar definition will write it. -/
inductive Provides (D : Ir.TempId → Prop) (s : State) (id : RegId) : Prop
  | parameter (h : id ∈ s.function.paramIds)
  | written (h : s.Writes id)
  | awaited {t : Ir.TempId} (ht : D t) (h : s.temps.lookup t = some id)

/-- What the operand reads is provided. -/
def Covers (D : Ir.TempId → Prop) (s : State) (o : Operand) : Prop :=
  ∀ id, o.unallocated? = some id → s.Provides D id

/-- The register of the temporary is written so far. -/
def Defines (s : State) (t : Ir.TempId) : Prop :=
  ∃ id, s.temps.lookup t = some id ∧ s.Writes id

/-- The frame object or the pieces of the temporary are known. -/
def Notes (s : State) (t : Ir.TempId) : Prop :=
  (∃ slot, (t, slot) ∈ s.objects) ∨ ∃ home, (AggregateName.temp t, home) ∈ s.aggregates

/-- The temporary is a scalar, or it is known where it lives, and its pieces are not taken for an
address. -/
def Resolves (D L : Ir.TempId → Prop) (s : State) (use : Ir.Use) : Prop :=
  ∀ t, use.value.tempId? = some t → D t ∨ s.Notes t ∧ (L t → use.isWhole)

/-- Everything that is known in `s` is known in `s'`. -/
structure Extends (s s' : State) : Prop where
  emitted : s.emitted ⊆ s'.emitted
  temps : ∀ t id, s.temps.lookup t = some id → s'.temps.lookup t = some id
  declared : s.function.paramIds ⊆ s'.function.paramIds
  objects : s.objects ⊆ s'.objects
  aggregates : s.aggregates ⊆ s'.aggregates

namespace Extends

theorem refl (s : State) : s.Extends s :=
  ⟨List.Subset.refl _, fun _ _ h => h, List.Subset.refl _, List.Subset.refl _, List.Subset.refl _⟩

theorem trans {s₁ s₂ s₃ : State} (h : s₁.Extends s₂) (h' : s₂.Extends s₃) : s₁.Extends s₃ where
  emitted := List.Subset.trans h.emitted h'.emitted
  temps t id hid := h'.temps t id (h.temps t id hid)
  declared := List.Subset.trans h.declared h'.declared
  objects := List.Subset.trans h.objects h'.objects
  aggregates := List.Subset.trans h.aggregates h'.aggregates

variable (h : s.Extends s')
include h

theorem writes {id : RegId} (hid : s.Writes id) : s'.Writes id := by
  obtain ⟨i, hi, hid⟩ := hid
  exact ⟨i, h.emitted hi, hid⟩

theorem provides {id : RegId} (hid : s.Provides D id) : s'.Provides D id := by
  cases hid with
  | parameter hid => exact .parameter (h.declared hid)
  | written hid => exact .written (h.writes hid)
  | awaited ht hid => exact .awaited ht (h.temps _ _ hid)

theorem covers {o : Operand} (ho : s.Covers D o) : s'.Covers D o :=
  fun id hid => h.provides (ho id hid)

theorem defines {t : Ir.TempId} (ht : s.Defines t) : s'.Defines t := by
  obtain ⟨id, hlookup, hid⟩ := ht
  exact ⟨id, h.temps t id hlookup, h.writes hid⟩

theorem notes {t : Ir.TempId} (ht : s.Notes t) : s'.Notes t := by
  rcases ht with ⟨slot, hslot⟩ | ⟨home, hhome⟩
  · exact .inl ⟨slot, h.objects hslot⟩
  · exact .inr ⟨home, h.aggregates hhome⟩

theorem resolves {use : Ir.Use} (huse : s.Resolves D L use) : s'.Resolves D L use :=
  fun t ht => (huse t ht).imp_right fun hnotes => ⟨h.notes hnotes.1, hnotes.2⟩

instance : IsPreorder State Extends where
  refl := refl
  trans _ _ _ := trans

end Extends

/-- Every register that is read so far is provided. -/
structure Backed (D L : Ir.TempId → Prop) (s : State) : Prop where
  reads : ∀ i ∈ s.emitted, ∀ id ∈ i.readIds, s.Provides D id
  params : ∀ e ∈ s.params, e.2.1 ∈ s.function.paramIds
  homes : ∀ name parts, (name, Home.registers parts) ∈ s.aggregates →
    ∀ part ∈ parts, s.Writes part.1
  pieces : ∀ t parts, (AggregateName.temp t, Home.registers parts) ∈ s.aggregates → L t

theorem Backed.extend (hs : s.Backed D L) (h : s.Extends s')
    (hreads : ∀ i ∈ s'.emitted, i ∈ s.emitted ∨ ∀ id ∈ i.readIds, s'.Provides D id)
    (hparams : s'.params = s.params) (haggregates : s'.aggregates = s.aggregates) :
    s'.Backed D L where
  reads i hi id hid := by
    rcases hreads i hi with hi | hreads
    · exact h.provides (hs.reads i hi id hid)
    · exact hreads id hid
  params e he := h.declared (hs.params e (hparams ▸ he))
  homes name parts hmem part hpart := h.writes (hs.homes name parts (haggregates ▸ hmem) part hpart)
  pieces t parts hmem := hs.pieces t parts (haggregates ▸ hmem)

/-- Where a temporary is noted, it is a frame object, or its pieces are in registers. -/
theorem Notes.frameObject?_or {t : Ir.TempId} (h : s.Notes t) (ty : Ir.Ty) :
    (s.frameObject? (.temp t ty)).isSome ∨ ∃ parts, s.homeRegisters? (.temp t ty) = some parts ∧
      (AggregateName.temp t, Home.registers parts) ∈ s.aggregates := by
  cases hobject : s.objects.lookup t with
  | some slot => exact .inl (by simp [frameObject?, hobject])
  | none =>
    have hobjects : ∀ slot, (t, slot) ∉ s.objects := by
      intro slot hslot
      have := List.lookup_eq_none_iff.mp hobject _ hslot
      simp at this
    have hhomes : ∃ home, (AggregateName.temp t, home) ∈ s.aggregates :=
      h.resolve_left fun hslots => hslots.elim hobjects
    obtain ⟨home, hhome⟩ := hhomes
    cases hlookup : s.aggregates.lookup (.temp t) with
    | none =>
      have := List.lookup_eq_none_iff.mp hlookup _ hhome
      simp at this
    | some home' =>
      cases home' with
      | slot slot => exact .inl (by simp [frameObject?, homeSlot?, hobject, hlookup])
      | registers parts =>
        refine .inr ⟨parts, ?_, mem_of_lookup_eq_some hlookup⟩
        rw [homeRegisters?, AggregateName.of?, Option.bind_some, hlookup]

/-- The value is a scalar, or its address is known. -/
def Finds (D : Ir.TempId → Prop) (s : State) (value : Ir.Value) : Prop :=
  ∀ t, value.tempId? = some t → D t ∨ (s.frameObject? value).isSome

theorem Resolves.finds {value : Ir.Value} (h : s.Resolves D L ⟨value, false⟩)
    (hs : s.Backed D L) : s.Finds D value := by
  intro t ht
  refine (h t ht).imp_right fun hnotes => ?_
  cases value with
  | temp id ty =>
    cases ht
    refine (hnotes.1.frameObject?_or ty).resolve_right ?_
    rintro ⟨parts, -, hmem⟩
    exact Bool.false_ne_true (hnotes.2 (hs.pieces _ parts hmem))
  | _ => cases ht

theorem Resolves.finds_of_homeRegisters? {use : Ir.Use} (h : s.Resolves D L use)
    (hhome : s.homeRegisters? use.value = none) : s.Finds D use.value := by
  intro t ht
  refine (h t ht).imp_right fun hnotes => ?_
  cases hvalue : use.value with
  | temp id ty =>
    rw [hvalue] at ht hhome
    cases ht
    refine (hnotes.1.frameObject?_or ty).resolve_right ?_
    rintro ⟨parts, hparts, -⟩
    cases hhome.symm.trans hparts
  | _ =>
    rw [hvalue] at ht
    cases ht

theorem Backed.homeRegisters? (hs : s.Backed D L) {value : Ir.Value}
    {parts : List (RegId × Piece)} (h : s.homeRegisters? value = some parts) :
    ∀ part ∈ parts, s.Writes part.1 := by
  obtain ⟨name, hmem⟩ := State.mem_aggregates_of_homeRegisters? h
  exact hs.homes name parts hmem

/-! ## Operands -/

theorem covers_of_unallocated? {o : Operand} (h : o.unallocated? = none) : s.Covers D o := by
  intro id hid
  cases h.symm.trans hid

theorem covers_virtualReg {id : RegId} (h : s.Provides D id) (ty : LowType) :
    s.Covers D (.virtualReg id ty) := by
  intro id' hid
  cases hid
  exact h

theorem covers_parameter {id : RegId} (h : id ∈ s.function.paramIds) (ty : LowType) :
    s.Covers D (.parameter id ty) := by
  intro id' hid
  cases hid
  exact .parameter h

theorem covers_piece {location : Operand} (h : s.Covers D location) (p : Piece) :
    s.Covers D (p.of location) := by
  intro id hid
  refine h id (Eq.trans ?_ hid)
  obtain ⟨kind, ty, regClass⟩ := location
  cases kind <;> rfl

end State

/-! ## Steps -/

/-- The step leads to a backed state that extends `s`, with an answer that `P` holds of there. -/
abbrev Backs (D L : Ir.TempId → Prop) (s : State) (x : Lower α) (P : State → α → Prop) : Prop :=
  Upholds State.Extends (State.Backed D L) s x P

theorem State.extends_append (s : State) (code : List Instruction) : s.Extends (s.append code) := by
  refine ⟨fun i hi => ?_, fun _ _ h => h, List.Subset.refl _, List.Subset.refl _,
    List.Subset.refl _⟩
  rw [State.emitted, State.code_append, ← List.append_assoc]
  exact List.mem_append_left _ hi

theorem State.Backed.append (hs : s.Backed D L) {i : Instruction}
    (hi : ∀ id ∈ i.readIds, s.Provides D id) : (s.append [i]).Backed D L := by
  refine hs.extend (s.extends_append _) (fun j hj => ?_) rfl rfl
  rw [State.emitted, State.code_append, ← List.append_assoc, List.mem_append,
    List.mem_singleton] at hj
  rcases hj with hj | rfl
  · exact .inl hj
  · exact .inr fun id hid => (s.extends_append _).provides (hi id hid)

theorem State.writes_append {i : Instruction} {id : RegId} (h : id ∈ i.writtenIds) :
    (s.append [i]).Writes id := by
  refine ⟨i, ?_, h⟩
  rw [State.emitted, State.code_append]
  simp

theorem backs_append (hs : s.Backed D L) {x : Lower Unit} {i : Instruction}
    (hx : x.run s = .ok ((), s.append [i])) (hreads : ∀ id ∈ i.readIds, s.Provides D id) :
    Backs D L s x fun s' _ => ∀ id ∈ i.writtenIds, s'.Writes id := by
  refine ⟨fun a s' hrun => ?_⟩
  cases hx.symm.trans hrun
  exact ⟨s.extends_append _, hs.append hreads, fun id hid => State.writes_append hid⟩

theorem backs_emit (hs : s.Backed D L) {op : GenericOp} {operands : List Operand}
    (hoperands : ∀ o ∈ operands, s.Covers D o) :
    Backs D L s (emit op operands) fun _ _ => True := by
  refine (backs_append hs (run_emit op operands) fun id hid => ?_).mono fun _ _ _ _ => trivial
  obtain ⟨o, ho, hid⟩ := List.mem_filterMap.mp (Instruction.readIds_subset hid)
  exact hoperands o ho id hid

theorem backs_emit_dest (hs : s.Backed D L) {op : GenericOp} {dest : Operand}
    {sources : List Operand} (hop : ∀ operands, (Instruction.generic op operands).isEffect = false)
    (hdest : dest.isMemory = false) (hsources : ∀ o ∈ sources, s.Covers D o) :
    Backs D L s (emit op (dest :: sources)) fun s' _ =>
      ∀ id, dest.unallocated? = some id → s'.Writes id := by
  refine (backs_append hs (run_emit op (dest :: sources)) fun id hid => ?_).mono
    fun s' _ _ hwrites id hid => hwrites id (Instruction.mem_writtenIds_generic (hop _) hdest hid)
  rw [Instruction.readIds_generic (hop _) hdest] at hid
  obtain ⟨o, ho, hid⟩ := List.mem_filterMap.mp hid
  exact hsources o ho id hid

theorem State.extends_withFunction {f : Machine.Function} (hblocks : f.blocks = s.function.blocks)
    (hparams : s.function.params ⊆ f.params) : s.Extends { s with function := f } := by
  refine ⟨?_, fun _ _ h => h, List.map_subset _ hparams, List.Subset.refl _, List.Subset.refl _⟩
  rw [State.emitted, State.emitted, Machine.Function.instructions, Machine.Function.instructions,
    hblocks]
  exact List.Subset.refl _

theorem State.Backed.withFunction (hs : s.Backed D L) {f : Machine.Function}
    (hblocks : f.blocks = s.function.blocks) (hparams : s.function.params ⊆ f.params) :
    State.Backed D L { s with function := f } := by
  refine hs.extend (State.extends_withFunction hblocks hparams) (fun i hi => .inl ?_) rfl rfl
  rw [State.emitted, Machine.Function.instructions, hblocks] at hi
  exact hi

theorem backs_freshId (hs : s.Backed D L) : Backs D L s freshId fun _ _ => True := by
  refine ⟨fun id s' hrun => ?_⟩
  obtain ⟨-, -, rfl⟩ := run_freshId_eq_ok.mp hrun
  exact ⟨State.extends_withFunction rfl (List.Subset.refl _),
    hs.withFunction rfl (List.Subset.refl _), trivial⟩

theorem backs_freshReg (hs : s.Backed D L) (ty : LowType) :
    Backs D L s (freshReg ty) fun _ o => ∃ id, o = .virtualReg id ty :=
  (backs_freshId hs).bind fun id _ _ hs' _ => .pure hs' ⟨id, rfl⟩

theorem backs_freshSlot (hs : s.Backed D L) (bytes : Nat) :
    Backs D L s (freshSlot bytes) fun _ _ => True := by
  refine ⟨fun slot s' hrun => ?_⟩
  obtain ⟨-, -, rfl⟩ := run_freshSlot_eq_ok.mp hrun
  exact ⟨State.extends_withFunction rfl (List.Subset.refl _),
    hs.withFunction rfl (List.Subset.refl _), trivial⟩

theorem backs_freshParameter (hs : s.Backed D L) (ty : LowType) (isFloat isReturnBuffer : Bool) :
    Backs D L s (freshParameter ty isFloat isReturnBuffer) fun s' id =>
      id ∈ s'.function.paramIds := by
  refine ⟨fun id s' hrun => ?_⟩
  obtain ⟨-, rfl, rfl⟩ := run_freshParameter_eq_ok.mp hrun
  have hparams := List.subset_append_left s.function.params
    [⟨s.function.nextId, ty, isFloat, isReturnBuffer⟩]
  refine ⟨State.extends_withFunction rfl hparams, hs.withFunction rfl hparams, ?_⟩
  simp [Machine.Function.paramIds]

theorem backs_tempReg (hs : s.Backed D L) (t : Ir.TempId) (ty : LowType) :
    Backs D L s (tempReg t ty) fun s' o =>
      ∃ id, o = .virtualReg id ty ∧ s'.temps.lookup t = some id := by
  refine .get_bind ?_
  split
  · next id hlookup => exact .pure hs ⟨id, rfl, hlookup⟩
  · next hnone =>
    refine ⟨fun o s' hrun => ?_⟩
    obtain ⟨id, s₁, hfresh, hrun⟩ := run_bind_eq_ok.mp hrun
    obtain ⟨hle₁, hs₁, -⟩ := (backs_freshId hs).ok _ _ hfresh
    obtain ⟨-, -, rfl⟩ := run_freshId_eq_ok.mp hfresh
    cases hrun
    have hle₂ : State.Extends { s with function := { s.function with
          nextId := s.function.nextId + 1 } }
        { s with
          function := { s.function with nextId := s.function.nextId + 1 }
          temps := (t, id) :: s.temps } := by
      refine ⟨List.Subset.refl _, fun t' id' hid' => ?_, List.Subset.refl _, List.Subset.refl _,
        List.Subset.refl _⟩
      have hne : t' ≠ t := by
        rintro rfl
        cases hnone.symm.trans hid'
      rw [List.lookup_cons, beq_false_of_ne hne]
      exact hid'
    refine ⟨hle₁.trans hle₂, hs₁.extend hle₂ (fun i hi => .inl hi) rfl rfl, id, rfl, ?_⟩
    simp

theorem State.extends_withNotes {objects : List (Ir.TempId × Slot)}
    {aggregates : List (AggregateName × Home)} (hobjects : s.objects ⊆ objects)
    (haggregates : s.aggregates ⊆ aggregates) :
    s.Extends { s with objects := objects, aggregates := aggregates } :=
  ⟨List.Subset.refl _, fun _ _ h => h, List.Subset.refl _, hobjects, haggregates⟩

theorem backs_setHome (hs : s.Backed D L) (name : AggregateName) (home : Home)
    (hwrites : ∀ parts, home = .registers parts → ∀ part ∈ parts, s.Writes part.1)
    (hpieces : ∀ t parts, name = .temp t → home = .registers parts → L t) :
    Backs D L s (setHome name home) fun s' _ => ∀ t, name = .temp t → s'.Notes t := by
  have hle : s.Extends { s with aggregates := (name, home) :: s.aggregates } :=
    State.extends_withNotes (List.Subset.refl _) (List.subset_cons_self _ _)
  refine .modify hle ⟨fun i hi id hid => hle.provides (hs.reads i hi id hid), hs.params,
    fun name' parts hmem => ?_, fun t parts hmem => ?_⟩ fun t ht => ?_
  · rcases List.mem_cons.mp hmem with heq | hmem
    · cases heq
      exact hwrites parts rfl
    · exact hs.homes name' parts hmem
  · rcases List.mem_cons.mp hmem with heq | hmem
    · cases heq
      exact hpieces t parts rfl rfl
    · exact hs.pieces t parts hmem
  · cases ht
    exact .inr ⟨home, List.mem_cons_self⟩

theorem backs_setHome_slot (hs : s.Backed D L) (t : Ir.TempId) (slot : Slot) :
    Backs D L s (setHome (.temp t) (.slot slot)) fun s' _ => s'.Notes t := by
  refine (backs_setHome hs _ _ ?_ ?_).mono fun _ _ _ h => h t rfl
  · intro parts heq
    cases heq
  · intro t parts _ heq
    cases heq

/-! ## Values -/

theorem backs_emitAddress (hs : s.Backed D L) {dest : Operand} (hdest : dest.isMemory = false)
    (value : Ir.Value) : Backs D L s (c.emitAddress dest value) fun s' _ =>
      s.isAddressable value → ∀ id, dest.unallocated? = some id → s'.Writes id := by
  refine .get_bind ?_
  split
  · refine (backs_emit_dest hs (fun _ => rfl) hdest ?_).mono fun _ _ _ h _ => h
    simpa using State.covers_of_unallocated? rfl
  · refine (backs_emit_dest hs (fun _ => rfl) hdest ?_).mono fun _ _ _ h _ => h
    simpa using State.covers_of_unallocated? rfl
  · next value _ _ hglobal hnone =>
    refine .pure hs fun haddressable => ?_
    rw [State.isAddressable, hnone] at haddressable
    cases value with
    | global name ty => exact absurd rfl (hglobal name ty)
    | _ => cases haddressable

theorem backs_addressOf (hs : s.Backed D L) {value : Ir.Value} (hvalue : s.isAddressable value) :
    Backs D L s (c.addressOf value) fun s' o => s'.Covers D o := by
  refine ⟨fun o s' hrun => ?_⟩
  obtain ⟨dest, s₁, hfresh, hrun⟩ := run_bind_eq_ok.mp hrun
  obtain ⟨id, s₂, hid, hdest⟩ := run_bind_eq_ok.mp hfresh
  cases hdest
  obtain ⟨hle₁, hs₁, -⟩ := (backs_freshId hs).ok _ _ hid
  obtain ⟨-, -, rfl⟩ := run_freshId_eq_ok.mp hid
  obtain ⟨_, s₃, haddress, hrun⟩ := run_bind_eq_ok.mp hrun
  cases hrun
  have hdest : (Operand.virtualReg id c.target.pointerType).isMemory = false := rfl
  obtain ⟨hle₂, hs₂, hwrites⟩ := (backs_emitAddress hs₁ hdest value).ok _ _ haddress
  refine ⟨hle₁.trans hle₂, hs₂, State.covers_virtualReg (.written (hwrites ?_ id rfl)) _⟩
  cases value <;> exact hvalue

theorem backs_operand (hs : s.Backed D L) {value : Ir.Value} (hvalue : s.Finds D value) :
    Backs D L s (c.operand value) fun s' o => s'.Covers D o := by
  unfold Scope.operand
  split
  · exact .pure hs (State.covers_of_unallocated? rfl)
  · exact .unsupported _
  · exact backs_addressOf hs (by simp [State.isAddressable, Ir.Value.isGlobal])
  · next t ty =>
    refine .get_bind ?_
    split
    · next hframe => exact backs_addressOf hs (by simp [State.isAddressable, hframe])
    · next hframe =>
      have ht : D t := (hvalue t rfl).resolve_right hframe
      refine (backs_tempReg hs t _).mono fun s' o _ ho => ?_
      obtain ⟨id, rfl, hlookup⟩ := ho
      exact State.covers_virtualReg (.awaited ht hlookup) _
  · refine .get_bind ?_
    split
    · next id ty hlookup =>
      exact .pure hs (State.covers_parameter (hs.params _ (mem_of_lookup_eq_some hlookup)) ty)
    · refine .get_bind ?_
      split
      · next hframe => exact backs_addressOf hs (by simp [State.isAddressable, hframe])
      · exact .unsupported _

theorem backs_location (hs : s.Backed D L) {ptr : Ir.Value} (hptr : s.Finds D ptr) (ty : LowType) :
    Backs D L s (c.location ptr ty) fun s' o => s'.Covers D o := by
  refine .get_bind ?_
  split
  · exact .pure hs (State.covers_of_unallocated? rfl)
  · split
    · exact .unsupported _
    · refine (backs_operand hs hptr).bind fun base s₁ _ hs₁ hbase => ?_
      split
      · next reg hreg =>
        refine .pure hs₁ fun id hid => ?_
        cases hid
        exact hbase reg hreg
      · exact .unsupported _

/-! ## Memory -/

theorem backs_check (hs : s.Backed D L) (x : Result α) :
    Backs D L s (check x) fun _ _ => True := by
  refine ⟨fun a s' hrun => ?_⟩
  obtain ⟨-, rfl⟩ := run_check_eq_ok.mp hrun
  exact ⟨.refl _, hs, trivial⟩

theorem backs_size (hs : s.Backed D L) (ty : Ir.Ty) : Backs D L s (c.size ty) fun _ _ => True :=
  backs_check hs _

theorem backs_fitsRegisters (hs : s.Backed D L) (ty : Ir.Ty) :
    Backs D L s (c.fitsRegisters ty) fun _ fits => fits = true →
      ∃ bytes, ty.size c.target.pointerBytes = .ok bytes ∧
        bytes * 8 ≤ c.target.convention.maxAggregateBits := by
  refine ⟨fun fits s' hrun => ?_⟩
  obtain ⟨bytes, hsize, -, rfl, rfl⟩ := run_fitsRegisters_eq_ok.mp hrun
  exact ⟨.refl _, hs, fun hfits => ⟨bytes, hsize, of_decide_eq_true hfits⟩⟩

theorem backs_piecesOf (hs : s.Backed D L) (ty : Ir.Ty) :
    Backs D L s (c.piecesOf ty) fun _ _ => True :=
  (backs_size hs ty).bind fun _ _ _ hs₁ _ => .pure hs₁ trivial

theorem backs_emitPieceCopy (hs : s.Backed D L) {dest source : Operand} (hdest : s.Covers D dest)
    (hsource : s.Covers D source) (p : Piece) :
    Backs D L s (Scope.emitPieceCopy dest source p) fun _ _ => True := by
  refine (backs_freshReg hs p.ty).bind fun temp s₁ hle₁ hs₁ htemp => ?_
  obtain ⟨id, rfl⟩ := htemp
  refine (backs_emit_dest hs₁ (fun _ => rfl) rfl ?_).bind fun _ s₂ hle₂ hs₂ hwrites => ?_
  · simpa using State.covers_piece (hle₁.covers hsource) p
  · refine backs_emit hs₂ ?_
    have hplace := State.covers_piece ((hle₁.trans hle₂).covers hdest) p
    simpa using ⟨hplace, State.covers_virtualReg (.written (hwrites id rfl)) p.ty⟩

theorem backs_emitCopy (hs : s.Backed D L) {dest source : Operand} (hdest : s.Covers D dest)
    (hsource : s.Covers D source) (bytes : Nat) :
    Backs D L s (c.emitCopy dest source bytes) fun _ _ => True :=
  .forM hs fun p _ _ hle hs' => backs_emitPieceCopy hs' (hle.covers hdest) (hle.covers hsource) p

theorem backs_emitPieceLoad (hs : s.Backed D L) {location : Operand}
    (hlocation : s.Covers D location) (p : Piece) :
    Backs D L s (Scope.emitPieceLoad location p) fun s' part => s'.Writes part.1 := by
  refine (backs_freshId hs).bind fun id s₁ hle₁ hs₁ _ => ?_
  refine (backs_emit_dest hs₁ (fun _ => rfl) rfl ?_).bind fun _ s₂ _ hs₂ hwrites =>
    .pure hs₂ (hwrites id rfl)
  simpa using State.covers_piece (hle₁.covers hlocation) p

theorem backs_define (hs : s.Backed D L) {op : GenericOp} {t : Ir.TempId} {id : RegId}
    {ty : LowType} {sources : List Operand}
    (hop : ∀ operands, (Instruction.generic op operands).isEffect = false)
    (hid : s.temps.lookup t = some id) (hsources : ∀ o ∈ sources, s.Covers D o) :
    Backs D L s (emit op (.virtualReg id ty :: sources)) fun s' _ => s'.Defines t := by
  refine (backs_emit_dest hs hop rfl hsources).mono fun s' _ hle hwrites => ?_
  exact ⟨id, hle.temps t id hid, hwrites id rfl⟩

/-- The result of an instruction is where its kind says. -/
def State.Settles (s : State) (i : Ir.Instruction) : Prop :=
  ∀ t, i.result? = some t → if i.hasScalarResult then s.Defines t else s.Notes t

theorem State.settles_of_defines {i : Ir.Instruction} {t : Ir.TempId} (hresult : i.result? = some t)
    (hi : i.hasScalarResult) (h : s.Defines t) : s.Settles i := by
  intro t' ht
  cases hresult.symm.trans ht
  rwa [if_pos hi]

theorem State.settles_of_notes {i : Ir.Instruction} {t : Ir.TempId} (hresult : i.result? = some t)
    (hi : i.hasScalarResult = false) (h : s.Notes t) : s.Settles i := by
  intro t' ht
  cases hresult.symm.trans ht
  rwa [if_neg (Bool.eq_false_iff.mp hi)]

theorem State.settles_of_result?_none {i : Ir.Instruction} (hi : i.result? = none) :
    s.Settles i := by
  intro t ht
  cases hi.symm.trans ht

theorem State.Extends.settles (h : s.Extends s') {i : Ir.Instruction} (hi : s.Settles i) :
    s'.Settles i := by
  intro t ht
  have hsettled := hi t ht
  by_cases hscalar : i.hasScalarResult
  · rw [if_pos hscalar] at hsettled ⊢
    exact h.defines hsettled
  · rw [if_neg hscalar] at hsettled ⊢
    exact h.notes hsettled

theorem backs_lowerLoad (hs : s.Backed D L) {result : Ir.TempId} {ptr : Ir.Value} {ty : Ir.Ty}
    (hptr : s.Resolves D L ⟨ptr, false⟩)
    (hL : (Ir.Instruction.load result ptr ty).loadsPieces c.target → L result) :
    Backs D L s (c.lowerLoad result ptr ty) fun s' _ => s'.Settles (.load result ptr ty) := by
  have hfinds := hptr.finds hs
  unfold Scope.lowerLoad
  split
  · next haggregate =>
    have hresult : (Ir.Instruction.load result ptr ty).hasScalarResult = false := by
      simp [Ir.Instruction.hasScalarResult, haggregate]
    refine (backs_location hs hfinds _).bind fun location s₁ hle₁ hs₁ hlocation => ?_
    refine (backs_fitsRegisters hs₁ ty).bind fun fits s₂ hle₂ hs₂ hfits => ?_
    split
    · next htrue =>
      refine (backs_piecesOf hs₂ ty).bind fun pieces s₃ hle₃ hs₃ _ => ?_
      have hlocation₃ := (hle₂.trans hle₃).covers hlocation
      refine (Upholds.mapM (Q := fun s' (part : RegId × Piece) => s'.Writes part.1) hs₃
        (fun _ _ _ hle hpart => hle.writes hpart) fun p _ s' hle hs' =>
          backs_emitPieceLoad hs' (hle.covers hlocation₃) p).bind fun parts s₄ _ hs₄ hparts => ?_
      have hload : L result := by
        obtain ⟨bytes, hsize, hbytes⟩ := hfits htrue
        refine hL ?_
        simp [Ir.Instruction.loadsPieces, haggregate, hsize, Except.toOption, hbytes]
      refine (backs_setHome hs₄ _ _ ?_ ?_).mono fun _ _ _ h =>
        State.settles_of_notes rfl hresult (h result rfl)
      · intro parts' heq
        cases heq
        exact hparts
      · intro t parts' ht _
        cases ht
        exact hload
    · refine (backs_size hs₂ ty).bind fun bytes s₃ hle₃ hs₃ _ => ?_
      refine (backs_freshSlot hs₃ bytes).bind fun slot s₄ hle₄ hs₄ _ => ?_
      have hlocation₄ := ((hle₂.trans hle₃).trans hle₄).covers hlocation
      refine (backs_emitCopy hs₄ (State.covers_of_unallocated? rfl) hlocation₄ bytes).bind
        fun _ s₅ _ hs₅ _ => ?_
      exact (backs_setHome_slot hs₅ result slot).mono fun _ _ _ h =>
        State.settles_of_notes rfl hresult h
  · next hscalar =>
    refine (backs_location hs hfinds _).bind fun location s₁ _ hs₁ hlocation => ?_
    refine (backs_tempReg hs₁ result _).bind fun dest s₂ hle₂ hs₂ hdest => ?_
    obtain ⟨id, rfl, hid⟩ := hdest
    have hcovers := hle₂.covers hlocation
    refine (backs_define hs₂ (fun _ => rfl) hid (by simpa using hcovers)).mono fun s' _ _ h => ?_
    exact State.settles_of_defines rfl (by simp [Ir.Instruction.hasScalarResult, hscalar]) h

theorem backs_lowerStore (hs : s.Backed D L) {value ptr : Ir.Value}
    (hptr : s.Resolves D L ⟨ptr, false⟩)
    (hvalue : s.Resolves D L ⟨value, value.ty.isAggregate⟩) :
    Backs D L s (c.lowerStore value ptr) fun _ _ => True := by
  dsimp only [Scope.lowerStore]
  split
  · refine (backs_location hs (hptr.finds hs) _).bind fun location s₁ hle₁ hs₁ hlocation =>
      .get_bind ?_
    split
    · next parts hparts =>
      refine .forM hs₁ fun part hpart s' hle hs' => backs_emit hs' ?_
      have hreg := hle.writes (hs₁.homeRegisters? hparts part hpart)
      have hplace := State.covers_piece (hle.covers hlocation) part.2
      simpa using ⟨hplace, State.covers_virtualReg (.written hreg) _⟩
    · next hnone =>
      have hfinds := (hle₁.resolves hvalue).finds_of_homeRegisters? hnone
      refine (backs_location hs₁ hfinds _).bind fun source s₂ hle₂ hs₂ hsource => ?_
      refine (backs_size hs₂ _).bind fun bytes s₃ hle₃ hs₃ _ => ?_
      exact backs_emitCopy hs₃ ((hle₂.trans hle₃).covers hlocation) (hle₃.covers hsource) bytes
  · next hscalar =>
    rw [Bool.eq_false_iff.mpr hscalar] at hvalue
    refine (backs_location hs (hptr.finds hs) _).bind fun location s₁ hle₁ hs₁ hlocation => ?_
    refine (backs_operand hs₁ ((hle₁.resolves hvalue).finds hs₁)).bind
      fun source s₂ hle₂ hs₂ hsource => ?_
    exact backs_emit hs₂ (by simpa using ⟨hle₂.covers hlocation, hsource⟩)

/-! ## Addresses -/

theorem backs_emitOffset (hs : s.Backed D L) {t : Ir.TempId} {id : RegId} {ty : LowType}
    {base : Operand} (hid : s.temps.lookup t = some id) (hbase : s.Covers D base) (offset : Int) :
    Backs D L s (c.emitOffset (.virtualReg id ty) base offset) fun s' _ => s'.Defines t := by
  unfold Scope.emitOffset
  split
  · exact backs_define hs (fun _ => rfl) hid (by simpa using hbase)
  · refine backs_define hs (fun _ => rfl) hid ?_
    simpa using ⟨hbase, State.covers_of_unallocated? rfl⟩

theorem backs_wideIndex (hs : s.Backed D L) {index : Ir.Value} (hindex : s.Finds D index) :
    Backs D L s (c.wideIndex index) fun s' o => s'.Covers D o := by
  refine (backs_operand hs hindex).bind fun narrow s₁ _ hs₁ hnarrow => ?_
  split
  · refine (backs_freshReg hs₁ _).bind fun wide s₂ hle₂ hs₂ hwide => ?_
    obtain ⟨id, rfl⟩ := hwide
    have hcovers := hle₂.covers hnarrow
    refine (backs_emit_dest hs₂ (fun _ => Instruction.isEffect_ite rfl rfl) rfl
      (by simpa using hcovers)).bind fun _ s₃ _ hs₃ hwrites => ?_
    exact .pure hs₃ (State.covers_virtualReg (.written (hwrites id rfl)) _)
  · exact .pure hs₁ hnarrow

theorem backs_scaledIndex (hs : s.Backed D L) {index : Ir.Value} (hindex : s.Finds D index)
    (element : Int) : Backs D L s (c.scaledIndex index element) fun s' o => s'.Covers D o := by
  refine (backs_wideIndex hs hindex).bind fun wide s₁ _ hs₁ hwide => ?_
  by_cases helement : element = 1
  · rw [if_pos helement]
    exact .pure hs₁ hwide
  · rw [if_neg helement]
    refine (backs_freshReg hs₁ _).bind fun product s₂ hle₂ hs₂ hproduct => ?_
    obtain ⟨id, rfl⟩ := hproduct
    refine (backs_emit_dest hs₂ (fun _ => rfl) rfl ?_).bind fun _ s₃ _ hs₃ hwrites =>
      .pure hs₃ (State.covers_virtualReg (.written (hwrites id rfl)) _)
    simpa using ⟨hle₂.covers hwide, State.covers_of_unallocated? rfl⟩

theorem backs_lowerElementPtr (hs : s.Backed D L) {result : Ir.TempId} {source index : Ir.Value}
    (hsource : s.Resolves D L ⟨source, false⟩) (hindex : s.Resolves D L ⟨index, false⟩) :
    Backs D L s (c.lowerElementPtr result source index) fun s' _ => s'.Defines result := by
  dsimp only [Scope.lowerElementPtr]
  refine (backs_operand hs (hsource.finds hs)).bind fun base s₁ hle₁ hs₁ hbase => ?_
  refine (backs_tempReg hs₁ result _).bind fun dest s₂ hle₂ hs₂ hdest => ?_
  obtain ⟨id, rfl, hid⟩ := hdest
  have hbase₂ := hle₂.covers hbase
  split
  · split
    · refine (backs_check hs₂ _).bind
        fun offset s₃ hle₃ hs₃ _ => ?_
      cases offset with
      | none => exact .unsupported _
      | some offset => exact backs_emitOffset hs₃ (hle₃.temps _ _ hid) (hle₃.covers hbase₂) _
    · exact .unsupported _
  · refine (backs_size hs₂ _).bind fun bytes s₃ hle₃ hs₃ _ => ?_
    have hbase₃ := hle₃.covers hbase₂
    split
    · refine (backs_check hs₃ _).bind
        fun offset s₄ hle₄ hs₄ _ => ?_
      exact backs_emitOffset hs₄ (hle₄.temps _ _ (hle₃.temps _ _ hid)) (hle₄.covers hbase₃) offset
    · have hindex₃ := (((hle₁.trans hle₂).trans hle₃).resolves hindex).finds hs₃
      refine (backs_scaledIndex hs₃ hindex₃ _).bind fun scaled s₄ hle₄ hs₄ hscaled => ?_
      refine backs_define hs₄ (fun _ => rfl) (hle₄.temps _ _ (hle₃.temps _ _ hid)) ?_
      simpa using ⟨hle₄.covers hbase₃, hscaled⟩

/-! ## Calls and returns -/

theorem backs_emitInto (hs : s.Backed D L) {dest source : Operand} (hdest : dest.isMemory = false)
    (hsource : s.Covers D source) : Backs D L s (emitInto dest source) fun s' _ =>
      ∀ id, dest.unallocated? = some id → s'.Writes id := by
  refine backs_emit_dest hs (fun _ => ?_) hdest (by simpa using hsource)
  exact Instruction.isEffect_ite rfl (Instruction.isEffect_ite rfl rfl)

theorem backs_stage (hs : s.Backed D L) {source : Operand} (hsource : s.Covers D source)
    (ty : LowType) : Backs D L s (stage source ty) fun s' o => s'.Covers D o := by
  refine .get_bind ?_
  split
  · refine (backs_freshReg hs ty).bind fun staged s₁ hle₁ hs₁ hstaged => ?_
    obtain ⟨id, rfl⟩ := hstaged
    refine (backs_emitInto hs₁ rfl (hle₁.covers hsource)).bind fun _ s₂ _ hs₂ hwrites => ?_
    exact .pure hs₂ (State.covers_virtualReg (.written (hwrites id rfl)) ty)
  · exact .pure hs hsource

/-- A physical register and what is moved there. -/
structure State.CoversPart (D : Ir.TempId → Prop) (s : State) (part : Operand × Operand) :
    Prop where
  dest : part.1.isMemory = false
  source : s.Covers D part.2

theorem backs_aggregateParts (hs : s.Backed D L) {value : Ir.Value} {isWhole : Bool}
    (hvalue : s.Resolves D L ⟨value, isWhole⟩) (registers : List RegId) :
    Backs D L s (c.aggregateParts value registers) fun s' parts =>
      ∀ part ∈ parts, s'.CoversPart D part := by
  dsimp only [Scope.aggregateParts]
  refine (backs_piecesOf hs _).bind fun chunks s₁ hle₁ hs₁ _ => ?_
  split
  · exact .unsupported_bind _
  · refine .get_bind ?_
    split
    · next parts hparts =>
      refine .pure hs₁ fun part hpart => ?_
      obtain ⟨⟨⟨reg, p⟩, root⟩, hzip, rfl⟩ := List.mem_map.mp hpart
      have hreg := hs₁.homeRegisters? hparts _ (List.of_mem_zip hzip).1
      exact ⟨rfl, State.covers_virtualReg (.written hreg) _⟩
    · next hnone =>
      have hfinds := (hle₁.resolves hvalue).finds_of_homeRegisters? hnone
      refine (backs_location hs₁ hfinds _).bind fun location s₂ _ hs₂ hlocation => ?_
      refine .pure hs₂ fun part hpart => ?_
      obtain ⟨⟨p, root⟩, hzip, rfl⟩ := List.mem_map.mp hpart
      exact ⟨rfl, State.covers_piece hlocation p⟩

/-- The register of an argument and what is copied there. -/
structure State.CoversPlaced (D : Ir.TempId → Prop) (s : State) (p : Placed) : Prop where
  dest : p.dest.isMemory = false
  source : ∀ source, p.argument = .copy source → s.Covers D source

theorem State.Extends.coversPlaced (h : s.Extends s') {p : Placed} (hp : s.CoversPlaced D p) :
    s'.CoversPlaced D p :=
  ⟨hp.dest, fun source hsource => h.covers (hp.source source hsource)⟩

theorem State.coversPlaced_address {dest : Operand} (hdest : dest.isMemory = false)
    (value : Ir.Value) : s.CoversPlaced D ⟨dest, .address value⟩ :=
  ⟨hdest, fun _ h => by cases h⟩

theorem backs_place (hs : s.Backed D L) {dest source : Operand} (hdest : dest.isMemory = false)
    (hsource : s.Covers D source) :
    Backs D L s (stage source dest.ty) fun s' staged => s'.CoversPlaced D ⟨dest, .copy staged⟩ := by
  refine (backs_stage hs hsource _).mono fun s' staged _ hstaged => ⟨hdest, fun source' h => ?_⟩
  cases h
  exact hstaged

theorem backs_placeReturnBuffer (hs : s.Backed D L) {arg : Ir.Value}
    (harg : s.Resolves D L ⟨arg, false⟩) :
    Backs D L s (c.placeReturnBuffer arg) fun s' p => s'.CoversPlaced D p := by
  refine .get_bind ?_
  split
  · exact .pure hs (State.coversPlaced_address rfl arg)
  · refine (backs_operand hs (harg.finds hs)).bind fun source s₁ _ hs₁ hsource => ?_
    exact (backs_place hs₁ rfl hsource).bind fun _ s₂ _ hs₂ hplaced => .pure hs₂ hplaced

theorem backs_placeAggregate (hs : s.Backed D L) (callee : String) (index : Nat) {arg : Ir.Value}
    {isWhole : Bool} (harg : s.Resolves D L ⟨arg, isWhole⟩) (cursor : Cursor) :
    Backs D L s (c.placeAggregate callee index arg cursor) fun s' r =>
      ∀ p ∈ r.1, s'.CoversPlaced D p := by
  refine (backs_fitsRegisters hs arg.ty).bind fun fits s₁ hle₁ hs₁ _ => ?_
  split
  · exact .unsupported_bind _
  · refine (backs_aggregateParts hs₁ (hle₁.resolves harg) _).bind fun parts s₂ _ hs₂ hparts => ?_
    have hstage : ∀ part ∈ parts, ∀ s', s₂.Extends s' → s'.Backed D L →
        Backs D L s' (stagePart part) fun s'' p => s''.CoversPlaced D p := by
      intro part hpart s' hle hs'
      obtain ⟨hdest, hsource⟩ := hparts part hpart
      exact (backs_place hs' hdest (hle.covers hsource)).bind fun _ s'' _ hs'' hplaced =>
        .pure hs'' hplaced
    exact (Upholds.mapM (Q := fun s' p => s'.CoversPlaced D p) hs₂
      (fun _ _ _ hle hp => hle.coversPlaced hp) hstage).bind
        fun placed s₃ _ hs₃ hplaced => .pure hs₃ hplaced

theorem backs_placeScalar (hs : s.Backed D L) (callee : String) {arg : Ir.Value}
    (harg : s.Resolves D L ⟨arg, false⟩) (cursor : Cursor) :
    Backs D L s (c.placeScalar callee arg cursor) fun s' r => s'.CoversPlaced D r.1 := by
  dsimp only [Scope.placeScalar]
  refine (backs_check hs _).bind
    fun root s₁ hle₁ hs₁ _ => .get_bind ?_
  split
  · exact .pure hs₁ (State.coversPlaced_address rfl arg)
  · refine (backs_operand hs₁ ((hle₁.resolves harg).finds hs₁)).bind
      fun source s₂ _ hs₂ hsource => ?_
    have hdest : (c.physical root (c.lowType arg.ty)).isMemory = false := rfl
    exact (backs_place hs₂ hdest hsource).bind fun _ s₃ _ hs₃ hplaced => .pure hs₃ hplaced

/-- How the argument at a position is used. -/
def argumentUse (returnBuffer : Option Nat) (arg : Ir.Value × Nat) : Ir.Use :=
  ⟨arg.1, arg.1.ty.isAggregate && returnBuffer != some arg.2⟩

theorem backs_placeArguments (hs : s.Backed D L) (callee : String) (returnBuffer : Option Nat)
    (args : List (Ir.Value × Nat))
    (hargs : ∀ arg ∈ args, s.Resolves D L (argumentUse returnBuffer arg)) (cursor : Cursor) :
    Backs D L s (c.placeArguments callee returnBuffer args cursor) fun s' placed =>
      ∀ p ∈ placed, s'.CoversPlaced D p := by
  induction args generalizing s cursor with
  | nil => exact .pure hs (by simp)
  | cons arg args ih =>
    obtain ⟨harg, hargs⟩ := List.forall_mem_cons.mp hargs
    unfold Scope.placeArguments
    dsimp only
    split
    · next hbuffer =>
      have huse : argumentUse returnBuffer arg = ⟨arg.1, false⟩ := by
        simp [argumentUse, eq_of_beq hbuffer]
      rw [huse] at harg
      refine (backs_placeReturnBuffer hs harg).bind fun placed s₁ hle₁ hs₁ hplaced => ?_
      refine (ih hs₁ (fun a ha => hle₁.resolves (hargs a ha)) cursor).bind
        fun rest s₂ hle₂ hs₂ hrest => ?_
      exact .pure hs₂ (List.forall_mem_cons.mpr ⟨hle₂.coversPlaced hplaced, hrest⟩)
    · split
      · refine (backs_placeAggregate hs callee _ harg cursor).bind fun r s₁ hle₁ hs₁ hplaced => ?_
        refine (ih hs₁ (fun a ha => hle₁.resolves (hargs a ha)) r.2).bind
          fun rest s₂ hle₂ hs₂ hrest => ?_
        refine .pure hs₂ (List.forall_mem_append.mpr ⟨fun p hp => ?_, hrest⟩)
        exact hle₂.coversPlaced (hplaced p hp)
      · next hscalar =>
        have huse : argumentUse returnBuffer arg = ⟨arg.1, false⟩ := by
          simp [argumentUse, hscalar]
        rw [huse] at harg
        refine (backs_placeScalar hs callee harg cursor).bind fun r s₁ hle₁ hs₁ hplaced => ?_
        refine (ih hs₁ (fun a ha => hle₁.resolves (hargs a ha)) r.2).bind
          fun rest s₂ hle₂ hs₂ hrest => ?_
        exact .pure hs₂ (List.forall_mem_cons.mpr ⟨hle₂.coversPlaced hplaced, hrest⟩)

theorem backs_emitPlaced (hs : s.Backed D L) {p : Placed} (hp : s.CoversPlaced D p) :
    Backs D L s (c.emitPlaced p) fun _ _ => True := by
  obtain ⟨dest, argument⟩ := p
  cases argument with
  | copy source =>
    exact (backs_emitInto hs hp.dest (hp.source source rfl)).mono fun _ _ _ _ => trivial
  | address value => exact (backs_emitAddress hs hp.dest value).mono fun _ _ _ _ => trivial

theorem backs_receiveAggregate (hs : s.Backed D L) (callee : String) (result : Ir.TempId)
    (ty : Ir.Ty) : Backs D L s (c.receiveAggregate callee result ty) fun s' _ =>
      s'.Notes result := by
  refine (backs_fitsRegisters hs ty).bind fun fits s₁ _ hs₁ _ => ?_
  split
  · exact .unsupported_bind _
  · refine (backs_size hs₁ ty).bind fun bytes s₂ _ hs₂ _ => ?_
    refine (backs_freshSlot hs₂ bytes).bind fun slot s₃ _ hs₃ _ => ?_
    refine (backs_piecesOf hs₃ ty).bind fun chunks s₄ _ hs₄ _ => ?_
    refine (Upholds.forM hs₄ fun part _ s' _ hs' => backs_emit hs' ?_).bind fun _ s₅ _ hs₅ _ => ?_
    · have hplace : s'.Covers D (.stack slot 0 c.target.pointerType) :=
        State.covers_of_unallocated? rfl
      simpa using ⟨State.covers_piece hplace part.1, State.covers_of_unallocated? rfl⟩
    · exact backs_setHome_slot hs₅ result slot

theorem backs_receiveScalar (hs : s.Backed D L) (result : Ir.TempId) (ty : Ir.Ty) :
    Backs D L s (c.receiveScalar result ty) fun s' _ => s'.Defines result := by
  refine (backs_check hs _).bind fun root s₁ _ hs₁ _ => ?_
  refine (backs_tempReg hs₁ result _).bind fun dest s₂ _ hs₂ hdest => ?_
  obtain ⟨id, rfl, hid⟩ := hdest
  exact backs_define hs₂ (fun _ => Instruction.isEffect_ite rfl rfl) hid
    (by simpa using State.covers_of_unallocated? rfl)

theorem backs_lowerCall (hs : s.Backed D L) {result : Option Ir.TempId} {callee : String}
    {args : List Ir.Value} {ty : Ir.Ty} {returnBuffer : Option UInt64}
    (huses : ∀ use ∈ (Ir.Instruction.call result callee args ty returnBuffer).uses,
      s.Resolves D L use) :
    Backs D L s (c.lowerCall result callee args ty (returnBuffer.map (·.toNat))) fun s' _ =>
      s'.Settles (.call result callee args ty returnBuffer) := by
  refine (Upholds.modify (g := fun s => { s with function := { s.function with isCaller := true } })
    (P := fun _ _ => True) (State.extends_withFunction rfl (List.Subset.refl _))
    (hs.withFunction rfl (List.Subset.refl _)) trivial).bind fun _ s₁ hle₁ hs₁ _ => ?_
  have hargs : ∀ arg ∈ args.zipIdx,
      s₁.Resolves D L (argumentUse (returnBuffer.map (·.toNat)) arg) :=
    fun arg harg => hle₁.resolves (huses _ (List.mem_map_of_mem harg))
  refine (backs_placeArguments hs₁ callee _ _ hargs _).bind fun placed s₂ _ hs₂ hplaced => ?_
  refine (Upholds.forM hs₂ fun p hp s' hle hs' =>
    backs_emitPlaced hs' (hle.coversPlaced (hplaced p hp))).bind fun _ s₃ _ hs₃ _ => ?_
  refine (backs_emit hs₃ (by simpa using State.covers_of_unallocated? rfl)).bind
    fun _ s₄ _ hs₄ _ => ?_
  cases result with
  | none => exact .pure hs₄ (State.settles_of_result?_none rfl)
  | some result =>
    dsimp only
    split
    · next haggregate =>
      refine (backs_receiveAggregate hs₄ callee result ty).mono fun _ _ _ h => ?_
      exact State.settles_of_notes rfl (by simp [Ir.Instruction.hasScalarResult, haggregate]) h
    · next hscalar =>
      refine (backs_receiveScalar hs₄ result ty).mono fun _ _ _ h => ?_
      exact State.settles_of_defines rfl (by simp [Ir.Instruction.hasScalarResult, hscalar]) h

theorem backs_lowerReturn (hs : s.Backed D L) {value : Option Ir.Value}
    (huses : ∀ use ∈ (Ir.Instruction.ret value).uses, s.Resolves D L use) :
    Backs D L s (c.lowerReturn value) fun _ _ => True := by
  cases value with
  | none => exact backs_emit hs (by simp)
  | some value =>
    have hvalue : s.Resolves D L ⟨value, value.ty.isAggregate⟩ :=
      huses _ (by simp [Ir.Instruction.uses])
    dsimp only [Scope.lowerReturn]
    split
    · refine (backs_fitsRegisters hs _).bind fun fits s₁ hle₁ hs₁ _ => ?_
      split
      · exact .unsupported_bind _
      · refine (backs_aggregateParts hs₁ (hle₁.resolves hvalue) _).bind
          fun parts s₂ _ hs₂ hparts => ?_
        refine (Upholds.forM hs₂ fun part hpart s' hle hs' => ?_).bind fun _ s₃ _ hs₃ _ =>
          backs_emit hs₃ (by simp)
        obtain ⟨hdest, hsource⟩ := hparts part hpart
        exact (backs_emitInto hs' hdest (hle.covers hsource)).mono fun _ _ _ _ => trivial
    · next hscalar =>
      rw [Bool.eq_false_iff.mpr hscalar] at hvalue
      refine (backs_operand hs (hvalue.finds hs)).bind fun operand s₁ _ hs₁ hoperand => ?_
      split
      · refine (backs_check hs₁ _).bind
          fun root s₂ hle₂ hs₂ _ => ?_
        have hsource := hle₂.covers hoperand
        exact (backs_emit_dest hs₂ (fun _ => rfl) rfl (by simpa using hsource)).bind
          fun _ s₃ _ hs₃ _ => backs_emit hs₃ (by simp)
      · exact backs_emit hs₁ (by simpa using hoperand)

/-! ## Instructions -/

theorem backs_lowerCompare (hs : s.Backed D L) {result : Ir.TempId} {rel : Ir.Relation}
    {lhs rhs : Ir.Value} (hlhs : s.Resolves D L ⟨lhs, false⟩) (hrhs : s.Resolves D L ⟨rhs, false⟩) :
    Backs D L s (c.lowerCompare result rel lhs rhs) fun s' _ => s'.Defines result := by
  dsimp only [Scope.lowerCompare]
  refine (backs_operand hs (hlhs.finds hs)).bind fun lhs' s₁ hle₁ hs₁ hlhs' => ?_
  refine (backs_operand hs₁ ((hle₁.resolves hrhs).finds hs₁)).bind fun rhs' s₂ hle₂ hs₂ hrhs' => ?_
  refine (backs_tempReg hs₂ result _).bind fun dest s₃ hle₃ hs₃ hdest => ?_
  obtain ⟨id, rfl, hid⟩ := hdest
  have hsources : ∀ o ∈ [lhs', rhs'], s₃.Covers D o := by
    simpa using ⟨(hle₂.trans hle₃).covers hlhs', hle₃.covers hrhs'⟩
  have hop : (Instruction.generic (if lhs.ty.isFloat then .cmpf else .cmp)
      [.virtualReg id (.integer 1), lhs', rhs']).isEffect = false :=
    Instruction.isEffect_ite rfl rfl
  -- The relation changes neither what is read nor what is written.
  refine (backs_append hs₃ (i := (Instruction.generic (if lhs.ty.isFloat then .cmpf else .cmp)
    [.virtualReg id (.integer 1), lhs', rhs']).withRelation (relation rel)) ?_ ?_).mono
      fun s' _ hle hwrites => ⟨id, hle.temps result id hid, hwrites id ?_⟩
  · show Except.ok _ = _
    simp [State.append]
  · intro id' hid'
    obtain ⟨o, ho, hid'⟩ := List.mem_filterMap.mp (Instruction.readIds_generic hop rfl ▸ hid')
    exact hsources o ho id' hid'
  · exact Instruction.mem_writtenIds_generic hop rfl rfl

theorem backs_lowerJumpUnless (hs : s.Backed D L) (next target : Option String) :
    Backs D L s (Scope.lowerJumpUnless next target) fun _ _ => True := by
  unfold Scope.lowerJumpUnless
  split
  · exact backs_emit hs (by simpa using State.covers_of_unallocated? rfl)
  · exact .pure hs trivial

theorem backs_lowerBranch (hs : s.Backed D L) {condition : Ir.Value}
    (hcondition : s.Resolves D L ⟨condition, false⟩) (trueTarget : String)
    (falseTarget next : Option String) :
    Backs D L s (c.lowerBranch condition trueTarget falseTarget next) fun _ _ => True := by
  unfold Scope.lowerBranch
  split
  · exact backs_lowerJumpUnless hs _ _
  · refine (backs_operand hs (hcondition.finds hs)).bind fun operand s₁ _ hs₁ hoperand => ?_
    refine backs_emit hs₁ (List.forall_mem_cons.mpr ⟨hoperand, List.forall_mem_cons.mpr
      ⟨State.covers_of_unallocated? rfl, fun o ho => ?_⟩⟩)
    obtain ⟨label, -, rfl⟩ := List.mem_map.mp ho
    exact State.covers_of_unallocated? rfl

/-- **Where what an instruction uses is resolved, it is lowered to code that reads no unknown
register, and its result is settled.** -/
theorem backs_lowerInstruction (hs : s.Backed D L) (next : Option String) {i : Ir.Instruction}
    (huses : ∀ use ∈ i.uses, s.Resolves D L use)
    (hL : ∀ t, i.result? = some t → i.loadsPieces c.target → L t) :
    Backs D L s (c.lowerInstruction next i) fun s' _ => s'.Settles i := by
  cases i with
  | binary result op lhs rhs ty =>
    refine (backs_operand hs ((huses ⟨lhs, false⟩ (by simp [Ir.Instruction.uses])).finds hs)).bind
      fun lhs' s₁ hle₁ hs₁ hlhs => ?_
    have hrhs := hle₁.resolves (huses ⟨rhs, false⟩ (by simp [Ir.Instruction.uses]))
    refine (backs_operand hs₁ (hrhs.finds hs₁)).bind fun rhs' s₂ hle₂ hs₂ hrhs' => ?_
    refine (backs_tempReg hs₂ result _).bind fun dest s₃ hle₃ hs₃ hdest => ?_
    obtain ⟨id, rfl, hid⟩ := hdest
    refine (backs_define hs₃ (fun operands => ?_) hid ?_).mono
      fun _ _ _ => State.settles_of_defines rfl rfl
    · cases op <;> rfl
    · simpa using ⟨(hle₂.trans hle₃).covers hlhs, hle₃.covers hrhs'⟩
  | unary result op operand ty =>
    refine (backs_operand hs ((huses ⟨operand, false⟩ (by simp [Ir.Instruction.uses])).finds
      hs)).bind fun source s₁ hle₁ hs₁ hsource => ?_
    refine (backs_tempReg hs₁ result _).bind fun dest s₂ hle₂ hs₂ hdest => ?_
    obtain ⟨id, rfl, hid⟩ := hdest
    refine (backs_define hs₂ (fun operands => ?_) hid ?_).mono
      fun _ _ _ => State.settles_of_defines rfl rfl
    · cases op with
      | bitcast => exact Instruction.isEffect_ite rfl rfl
      | _ => rfl
    · simpa using hle₂.covers hsource
  | compare result rel lhs rhs =>
    have hlhs := huses ⟨lhs, false⟩ (by simp [Ir.Instruction.uses])
    have hrhs := huses ⟨rhs, false⟩ (by simp [Ir.Instruction.uses])
    exact (backs_lowerCompare hs hlhs hrhs).mono
      fun _ _ _ => State.settles_of_defines rfl rfl
  | stackAlloc result name ty =>
    refine (backs_size hs ty).bind fun bytes s₁ _ hs₁ _ => ?_
    refine (backs_freshSlot hs₁ bytes).bind fun slot s₂ _ hs₂ _ => ?_
    have hle : s₂.Extends { s₂ with objects := (result, slot) :: s₂.objects } :=
      State.extends_withNotes (List.subset_cons_self _ _) (List.Subset.refl _)
    exact .modify hle (hs₂.extend hle (fun i hi => .inl hi) rfl rfl)
      (State.settles_of_notes rfl rfl (.inl ⟨slot, List.mem_cons_self⟩))
  | load result ptr ty =>
    exact backs_lowerLoad hs (huses ⟨ptr, false⟩ (by simp [Ir.Instruction.uses])) (hL result rfl)
  | store value ptr =>
    have hptr := huses ⟨ptr, false⟩ (by simp [Ir.Instruction.uses])
    have hvalue := huses ⟨value, value.ty.isAggregate⟩ (by simp [Ir.Instruction.uses])
    exact (backs_lowerStore hs hptr hvalue).mono
      fun _ _ _ _ => State.settles_of_result?_none rfl
  | elementPtr result source index ty =>
    have hsource := huses ⟨source, false⟩ (by simp [Ir.Instruction.uses])
    have hindex := huses ⟨index, false⟩ (by simp [Ir.Instruction.uses])
    exact (backs_lowerElementPtr hs hsource hindex).mono
      fun _ _ _ => State.settles_of_defines rfl rfl
  | memCopy dest source bytes =>
    have hdest := huses ⟨dest, false⟩ (by simp [Ir.Instruction.uses])
    refine (backs_location hs (hdest.finds hs) _).bind fun dest' s₁ hle₁ hs₁ hdest' => ?_
    have hsource := hle₁.resolves (huses ⟨source, false⟩ (by simp [Ir.Instruction.uses]))
    refine (backs_location hs₁ (hsource.finds hs₁) _).bind fun source' s₂ hle₂ hs₂ hsource' => ?_
    exact (backs_emitCopy hs₂ (hle₂.covers hdest') hsource' _).mono
      fun _ _ _ _ => State.settles_of_result?_none rfl
  | call result callee args ty returnBuffer => exact backs_lowerCall hs huses
  | jump target =>
    exact (backs_emit hs (by simpa using State.covers_of_unallocated? rfl)).mono
      fun _ _ _ _ => State.settles_of_result?_none rfl
  | branch condition trueTarget falseTarget =>
    have hcondition := huses ⟨condition, false⟩ (by simp [Ir.Instruction.uses])
    exact (backs_lowerBranch hs hcondition trueTarget falseTarget next).mono
      fun _ _ _ _ => State.settles_of_result?_none rfl
  | ret value =>
    exact (backs_lowerReturn hs huses).mono fun _ _ _ _ => State.settles_of_result?_none rfl

end Lowering

end Retarget
