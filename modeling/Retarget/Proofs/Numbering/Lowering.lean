import Retarget.Proofs.Lowering.Invariants
import Retarget.Proofs.Lowering.Steps
import Retarget.Proofs.Numbering.Basic

/-!
# Ids that lowering draws

Whatever lowering notes of a value, be it the register of a temporary, the pieces or the frame
object of an aggregate, or a parameter, it has drawn an id for, and it names the id in code as what it
was drawn for (`State.Numbered`).  Later steps draw more ids, none of which is an old one
(`State.Draws`), so lowered functions are numbered (`numbered_lowerFunction`).
-/

namespace Retarget

namespace Machine.Operand

variable {f : Function}

theorem Numbered.unallocated? {o : Operand} (ho : o.Numbered f) {id : RegId}
    (hid : o.unallocated? = some id) : f.HasRegister id ∨ id ∈ f.paramIds := by
  obtain ⟨kind, ty, regClass⟩ := o
  cases kind with
  | virtualReg id' => cases hid; exact .inl ho
  | parameter id' => cases hid; exact .inr ho
  | memory base offset => cases hid; exact ho
  | _ => cases hid

theorem Numbered.piece {location : Operand} (h : location.Numbered f) (p : Lowering.Piece) :
    (p.of location).Numbered f := by
  obtain ⟨kind, ty, regClass⟩ := location
  cases kind <;> exact h

end Machine.Operand

namespace Lowering

open Machine

variable {c : Scope} {s s' : State} {α : Type}

/-! ## States -/

/-- What makes up the home of an aggregate was drawn for that. -/
def Home.Numbered (f : Machine.Function) : Home → Prop
  | .registers parts => ∀ part ∈ parts, f.HasRegister part.1
  | .slot object => object ∈ f.slots

theorem Home.Numbered.mono {home : Home} {f g : Machine.Function} (h : home.Numbered f)
    (hfg : f.Extends g) : home.Numbered g := by
  cases home with
  | registers parts => exact fun part hpart => (h part hpart).mono hfg
  | slot slot => exact hfg.slots h

namespace State

/-- All code so far and all that is noted names ids for what they were drawn for. -/
structure Numbered (s : State) : Prop where
  drawn : s.function.Drawn
  code : ∀ i ∈ s.code.toList, i.Numbered s.function
  blocks : s.function.All (·.Numbered s.function)
  temps : ∀ e ∈ s.temps, s.function.HasRegister e.2
  params : ∀ e ∈ s.params, e.2.1 ∈ s.function.paramIds
  objects : ∀ e ∈ s.objects, e.2 ∈ s.function.slots
  homes : ∀ e ∈ s.aggregates, e.2.Numbered s.function

/-- Ids were drawn on the way from `s` to `s'`. -/
def Draws (s s' : State) : Prop := s.function.Extends s'.function

instance : IsPreorder State Draws where
  refl s := .refl s.function
  trans _ _ _ h h' := h.trans h'

theorem Draws.refl (s : State) : s.Draws s := Function.Extends.refl s.function

theorem numbered_start (f : Ir.Function) : (State.start f).Numbered := by
  refine ⟨⟨List.nodup_nil, ?_⟩, ?_, ?_, ?_, ?_, ?_, ?_⟩ <;>
    simp [start, Machine.Function.All, Machine.Function.instructions, Machine.Function.declaredIds,
      Machine.Function.paramIds, Machine.Function.slotIds, Machine.Function.slots]

namespace Numbered

theorem push (hs : s.Numbered) {i : Instruction} (hi : i.Numbered s.function) :
    State.Numbered { s with code := s.code.push i } := by
  refine { hs with code := fun j hj => ?_ }
  rw [Array.toList_push] at hj
  rcases List.mem_append.mp hj with hj | hj
  · exact hs.code j hj
  · exact List.mem_singleton.mp hj ▸ hi

theorem withFunction (hs : s.Numbered) {f : Machine.Function} (hdrawn : f.Drawn)
    (hle : s.function.Extends f) (hblocks : f.blocks = s.function.blocks) :
    State.Numbered { s with function := f } where
  drawn := hdrawn
  code i hi := (hs.code i hi).mono hle
  blocks i hi := by
    refine (hs.blocks i ?_).mono hle
    simpa [Machine.Function.instructions, hblocks] using hi
  temps e he := (hs.temps e he).mono hle
  params e he := hle.params (hs.params e he)
  objects e he := hle.slots (hs.objects e he)
  homes e he := (hs.homes e he).mono hle

theorem declare (hs : s.Numbered) {f : Machine.Function} (hf : s.function.Declares f)
    (hblocks : f.blocks = s.function.blocks) : State.Numbered { s with function := f } :=
  hs.withFunction (hf.drawn hs.drawn) hf.toExtends hblocks

theorem homeRegisters? (hs : s.Numbered) {value : Ir.Value} {parts : List (RegId × Piece)}
    (h : s.homeRegisters? value = some parts) : ∀ part ∈ parts, s.function.HasRegister part.1 := by
  obtain ⟨name, hmem⟩ := State.mem_aggregates_of_homeRegisters? h
  exact hs.homes (name, .registers parts) hmem

theorem frameObject? (hs : s.Numbered) {value : Ir.Value} {slot : Slot}
    (h : s.frameObject? value = some slot) : slot ∈ s.function.slots := by
  rcases State.frameObject?_cases h with ⟨id, hmem⟩ | ⟨name, hmem⟩
  · exact hs.objects (id, slot) hmem
  · exact hs.homes (name, .slot slot) hmem

end Numbered

end State

/-- The step draws ids and names them for what they are, and `P` holds of the answer. -/
abbrev Numbers (s : State) (x : Lower α) (P : State → α → Prop) : Prop :=
  Upholds State.Draws State.Numbered s x P

/-! ## Steps -/

theorem numbers_emit (hs : s.Numbered) {op : GenericOp} {operands : List Operand}
    (hoperands : ∀ o ∈ operands, o.Numbered s.function) :
    Numbers s (emit op operands) fun _ _ => True :=
  have hi : (Instruction.generic op operands).Numbered s.function := hoperands
  .modify (.refl s) (hs.push hi) trivial

theorem numbers_check (hs : s.Numbered) (x : Result α) :
    Numbers s (check x) fun _ _ => True :=
  .check hs fun _ _ => trivial

theorem numbers_modify {g : State → State} (hle : s.Draws (g s)) (hs : (g s).Numbered) :
    Numbers s (modify g) fun _ _ => True :=
  .modify hle hs trivial

theorem numbers_freshId (hs : s.Numbered) :
    Numbers s freshId fun s' id => s'.function.HasRegister id := by
  refine ⟨fun id s' hrun => ?_⟩
  obtain ⟨-, rfl, rfl⟩ := run_freshId_eq_ok.mp hrun
  have hwidens : s.function.Widens { s.function with nextId := s.function.nextId + 1 } :=
    ⟨Nat.le_succ _, rfl, rfl⟩
  exact ⟨hwidens.toExtends, hs.withFunction (hwidens.drawn hs.drawn) hwidens.toExtends rfl,
    hwidens.hasRegister hs.drawn (Nat.le_refl _) (Nat.lt_succ_self _)⟩

theorem numbers_freshReg (hs : s.Numbered) (ty : LowType) :
    Numbers s (freshReg ty) fun s' o => o.Numbered s'.function :=
  (numbers_freshId hs).bind fun _ _ _ hs' hid => .pure hs' hid

theorem numbers_freshSlot (hs : s.Numbered) (bytes : Nat) :
    Numbers s (freshSlot bytes) fun s' slot => slot ∈ s'.function.slots := by
  refine ⟨fun slot s' hrun => ?_⟩
  obtain ⟨-, rfl, rfl⟩ := run_freshSlot_eq_ok.mp hrun
  have hslot := Function.Declares.slot s.function (bytes % Word.modulus 32)
  exact ⟨hslot.toExtends, hs.declare hslot rfl, by simp [Function.slots, Frame.insert]⟩

theorem numbers_freshParameter (hs : s.Numbered) (ty : LowType) (isFloat isReturnBuffer : Bool) :
    Numbers s (freshParameter ty isFloat isReturnBuffer) fun s' id =>
      id ∈ s'.function.paramIds := by
  refine ⟨fun id s' hrun => ?_⟩
  obtain ⟨-, rfl, rfl⟩ := run_freshParameter_eq_ok.mp hrun
  have hparameter := Function.Declares.parameter s.function ty isFloat isReturnBuffer
  exact ⟨hparameter.toExtends, hs.declare hparameter rfl, by simp [Function.paramIds]⟩

theorem numbers_tempReg (hs : s.Numbered) (id : Ir.TempId) (ty : LowType) :
    Numbers s (tempReg id ty) fun s' o => o.Numbered s'.function := by
  refine .get_bind ?_
  split
  · next reg hlookup =>
    exact .pure hs (hs.temps (id, reg) (mem_of_lookup_eq_some hlookup))
  · refine (numbers_freshId hs).bind fun reg s₁ _ hs₁ hreg => ?_
    refine (numbers_modify (g := fun s => { s with temps := (id, reg) :: s.temps }) (.refl s₁)
      { hs₁ with temps := List.forall_mem_cons.mpr ⟨hreg, hs₁.temps⟩ }).bind
      fun _ s₂ hle hs₂ _ => ?_
    exact .pure hs₂ (hreg.mono hle)

theorem numbers_setHome (hs : s.Numbered) (name : AggregateName) {home : Home}
    (h : home.Numbered s.function) : Numbers s (setHome name home) fun _ _ => True :=
  .modify (.refl s) { hs with homes := List.forall_mem_cons.mpr ⟨h, hs.homes⟩ } trivial

/-! ## Values -/

theorem numbers_emitAddress (hs : s.Numbered) {dest : Operand} (hdest : dest.Numbered s.function)
    (value : Ir.Value) : Numbers s (c.emitAddress dest value) fun _ _ => True := by
  refine .get_bind ?_
  split
  · next slot hslot =>
    have hobject : slot ∈ s.function.slots := hs.frameObject? hslot
    exact numbers_emit hs (by simpa using ⟨hdest, hobject⟩)
  · exact numbers_emit hs (by simpa using hdest)
  · exact .pure hs trivial

theorem numbers_addressOf (hs : s.Numbered) (value : Ir.Value) :
    Numbers s (c.addressOf value) fun s' o => o.Numbered s'.function :=
  (numbers_freshReg hs _).bind fun _ _ _ hs₁ hdest =>
    (numbers_emitAddress hs₁ hdest value).bind fun _ _ hle hs₂ _ => .pure hs₂ (hdest.mono hle)

theorem numbers_operand (hs : s.Numbered) (value : Ir.Value) :
    Numbers s (c.operand value) fun s' o => o.Numbered s'.function := by
  unfold Scope.operand
  split
  · exact .pure hs (Operand.numbered_immediate _ _)
  · exact .unsupported _
  · exact numbers_addressOf hs _
  · refine .get_bind ?_
    split
    · exact numbers_addressOf hs _
    · exact numbers_tempReg hs _ _
  · refine .get_bind ?_
    split
    · next id ty hlookup =>
      exact .pure hs (hs.params (_, id, ty) (mem_of_lookup_eq_some hlookup))
    · refine .get_bind ?_
      split
      · exact numbers_addressOf hs _
      · exact .unsupported _

theorem numbers_location (hs : s.Numbered) (ptr : Ir.Value) (ty : LowType) :
    Numbers s (c.location ptr ty) fun s' o => o.Numbered s'.function := by
  refine .get_bind ?_
  split
  · next slot hslot => exact .pure hs (hs.frameObject? hslot)
  · split
    · exact .unsupported _
    · refine (numbers_operand hs ptr).bind fun base s₁ _ hs₁ hbase => ?_
      split
      · next reg hreg => exact .pure hs₁ (hbase.unallocated? hreg)
      · exact .unsupported _

/-! ## Memory -/

theorem numbers_size (hs : s.Numbered) (ty : Ir.Ty) : Numbers s (c.size ty) fun _ _ => True :=
  numbers_check hs _

theorem numbers_fitsRegisters (hs : s.Numbered) (ty : Ir.Ty) :
    Numbers s (c.fitsRegisters ty) fun _ _ => True :=
  (numbers_size hs ty).bind fun _ _ _ hs₁ _ =>
    (numbers_check hs₁ _).bind fun _ _ _ hs₂ _ => .pure hs₂ trivial

theorem numbers_piecesOf (hs : s.Numbered) (ty : Ir.Ty) :
    Numbers s (c.piecesOf ty) fun _ _ => True :=
  (numbers_size hs ty).bind fun _ _ _ hs₁ _ => .pure hs₁ trivial

theorem numbers_emitPieceCopy (hs : s.Numbered) {dest source : Operand}
    (hdest : dest.Numbered s.function) (hsource : source.Numbered s.function) (p : Piece) :
    Numbers s (Scope.emitPieceCopy dest source p) fun _ _ => True := by
  refine (numbers_freshReg hs p.ty).bind fun temp s₁ hle₁ hs₁ htemp => ?_
  refine (numbers_emit hs₁ ?_).bind fun _ s₂ hle₂ hs₂ _ => ?_
  · simpa using ⟨htemp, (hsource.mono hle₁).piece p⟩
  · have hdest' := (hdest.mono hle₁).mono hle₂
    exact numbers_emit hs₂ (by simpa using ⟨hdest'.piece p, htemp.mono hle₂⟩)

theorem numbers_emitCopy (hs : s.Numbered) {dest source : Operand}
    (hdest : dest.Numbered s.function) (hsource : source.Numbered s.function) (bytes : Nat) :
    Numbers s (c.emitCopy dest source bytes) fun _ _ => True :=
  .forM hs fun p _ _ hle hs' => numbers_emitPieceCopy hs' (hdest.mono hle) (hsource.mono hle) p

theorem numbers_emitPieceLoad (hs : s.Numbered) {location : Operand}
    (hlocation : location.Numbered s.function) (p : Piece) :
    Numbers s (Scope.emitPieceLoad location p) fun s' part => s'.function.HasRegister part.1 := by
  refine (numbers_freshId hs).bind fun id s₁ hle₁ hs₁ hid => ?_
  refine (numbers_emit hs₁ ?_).bind fun _ s₂ hle₂ hs₂ _ => .pure hs₂ (hid.mono hle₂)
  simpa using ⟨hid, (hlocation.mono hle₁).piece p⟩

theorem numbers_lowerLoad (hs : s.Numbered) (result : Ir.TempId) (ptr : Ir.Value) (ty : Ir.Ty) :
    Numbers s (c.lowerLoad result ptr ty) fun _ _ => True := by
  unfold Scope.lowerLoad
  split
  · refine (numbers_location hs ptr _).bind fun location s₁ _ hs₁ hlocation => ?_
    refine (numbers_fitsRegisters hs₁ ty).bind fun fits s₂ hle₂ hs₂ _ => ?_
    have hlocation₂ := hlocation.mono hle₂
    split
    · refine (numbers_piecesOf hs₂ ty).bind fun pieces s₃ hle₃ hs₃ _ => ?_
      refine (Upholds.mapM hs₃ (fun s₁ s₂ part hle hpart => hpart.mono hle) fun p _ s' hle hs' =>
        numbers_emitPieceLoad hs' ((hlocation₂.mono hle₃).mono hle) p).bind
        fun parts s₄ _ hs₄ hparts => ?_
      exact numbers_setHome hs₄ _ hparts
    · refine (numbers_size hs₂ ty).bind fun bytes s₃ hle₃ hs₃ _ => ?_
      refine (numbers_freshSlot hs₃ bytes).bind fun slot s₄ hle₄ hs₄ hslot => ?_
      have hlocation₄ := (hlocation₂.mono hle₃).mono hle₄
      refine (numbers_emitCopy hs₄ (by simpa using hslot) hlocation₄ bytes).bind
        fun _ s₅ hle₅ hs₅ _ => ?_
      exact numbers_setHome hs₅ _ (hle₅.slots hslot)
  · refine (numbers_location hs ptr _).bind fun location s₁ _ hs₁ hlocation => ?_
    refine (numbers_tempReg hs₁ result _).bind fun dest s₂ hle₂ hs₂ hdest => ?_
    exact numbers_emit hs₂ (by simpa using ⟨hdest, hlocation.mono hle₂⟩)

theorem numbers_lowerStore (hs : s.Numbered) (value ptr : Ir.Value) :
    Numbers s (c.lowerStore value ptr) fun _ _ => True := by
  dsimp only [Scope.lowerStore]
  split
  · refine (numbers_location hs ptr _).bind fun location s₁ _ hs₁ hlocation => .get_bind ?_
    split
    · next parts hparts =>
      refine .forM hs₁ fun part hpart s' hle hs' => numbers_emit hs' ?_
      have hreg := (hs₁.homeRegisters? hparts part hpart).mono hle
      simpa using ⟨(hlocation.mono hle).piece part.2, hreg⟩
    · refine (numbers_location hs₁ value _).bind fun source s₂ hle₂ hs₂ hsource => ?_
      refine (numbers_size hs₂ _).bind fun bytes s₃ hle₃ hs₃ _ => ?_
      exact numbers_emitCopy hs₃ ((hlocation.mono hle₂).mono hle₃) (hsource.mono hle₃) bytes
  · refine (numbers_location hs ptr _).bind fun location s₁ _ hs₁ hlocation => ?_
    refine (numbers_operand hs₁ value).bind fun source s₂ hle₂ hs₂ hsource => ?_
    exact numbers_emit hs₂ (by simpa using ⟨hlocation.mono hle₂, hsource⟩)

theorem numbers_emitOffset (hs : s.Numbered) {dest base : Operand}
    (hdest : dest.Numbered s.function) (hbase : base.Numbered s.function) (offset : Int) :
    Numbers s (c.emitOffset dest base offset) fun _ _ => True := by
  unfold Scope.emitOffset
  split
  · exact numbers_emit hs (by simpa using ⟨hdest, hbase⟩)
  · exact numbers_emit hs (by simpa using ⟨hdest, hbase⟩)

theorem numbers_wideIndex (hs : s.Numbered) (index : Ir.Value) :
    Numbers s (c.wideIndex index) fun s' o => o.Numbered s'.function := by
  refine (numbers_operand hs index).bind fun narrow s₁ _ hs₁ hnarrow => ?_
  split
  · refine (numbers_freshReg hs₁ _).bind fun wide s₂ hle₂ hs₂ hwide => ?_
    refine (numbers_emit hs₂ ?_).bind fun _ s₃ hle₃ hs₃ _ => .pure hs₃ (hwide.mono hle₃)
    simpa using ⟨hwide, hnarrow.mono hle₂⟩
  · exact .pure hs₁ hnarrow

theorem numbers_scaledIndex (hs : s.Numbered) (index : Ir.Value) (element : Int) :
    Numbers s (c.scaledIndex index element) fun s' o => o.Numbered s'.function := by
  refine (numbers_wideIndex hs index).bind fun wide s₁ _ hs₁ hwide => ?_
  split
  · exact .pure hs₁ hwide
  · refine (numbers_freshReg hs₁ _).bind fun product s₂ hle₂ hs₂ hproduct => ?_
    refine (numbers_emit hs₂ ?_).bind fun _ s₃ hle₃ hs₃ _ => .pure hs₃ (hproduct.mono hle₃)
    simpa using ⟨hproduct, hwide.mono hle₂⟩

theorem numbers_lowerElementPtr (hs : s.Numbered) (result : Ir.TempId)
    (source index : Ir.Value) :
    Numbers s (c.lowerElementPtr result source index) fun _ _ => True := by
  dsimp only [Scope.lowerElementPtr]
  refine (numbers_operand hs source).bind fun base s₁ _ hs₁ hbase => ?_
  refine (numbers_tempReg hs₁ result _).bind fun dest s₂ hle₂ hs₂ hdest => ?_
  have hbase₂ := hbase.mono hle₂
  split
  · split
    · refine (numbers_check hs₂ _).bind fun offset s₃ hle₃ hs₃ _ => ?_
      cases offset with
      | none => exact .unsupported _
      | some offset => exact numbers_emitOffset hs₃ (hdest.mono hle₃) (hbase₂.mono hle₃) _
    · exact .unsupported _
  · refine (numbers_size hs₂ _).bind fun bytes s₃ hle₃ hs₃ _ => ?_
    have hdest₃ := hdest.mono hle₃
    have hbase₃ := hbase₂.mono hle₃
    split
    · exact (numbers_check hs₃ _).bind fun offset s₄ hle₄ hs₄ _ =>
        numbers_emitOffset hs₄ (hdest₃.mono hle₄) (hbase₃.mono hle₄) offset
    · refine (numbers_scaledIndex hs₃ index _).bind fun scaled s₄ hle₄ hs₄ hscaled => ?_
      exact numbers_emit hs₄ (by simpa using ⟨hdest₃.mono hle₄, hbase₃.mono hle₄, hscaled⟩)

/-! ## Calls and returns -/

theorem numbers_emitInto (hs : s.Numbered) {dest source : Operand}
    (hdest : dest.Numbered s.function) (hsource : source.Numbered s.function) :
    Numbers s (emitInto dest source) fun _ _ => True :=
  numbers_emit hs (by simpa using ⟨hdest, hsource⟩)

theorem numbers_stage (hs : s.Numbered) {source : Operand} (hsource : source.Numbered s.function)
    (ty : LowType) : Numbers s (stage source ty) fun s' o => o.Numbered s'.function := by
  refine .get_bind ?_
  split
  · refine (numbers_freshReg hs ty).bind fun staged s₁ hle₁ hs₁ hstaged => ?_
    exact (numbers_emitInto hs₁ hstaged (hsource.mono hle₁)).bind fun _ s₂ hle₂ hs₂ _ =>
      .pure hs₂ (hstaged.mono hle₂)
  · exact .pure hs hsource

theorem numbers_aggregateParts (hs : s.Numbered) (value : Ir.Value) (registers : List RegId) :
    Numbers s (c.aggregateParts value registers) fun s' parts =>
      ∀ part ∈ parts, part.1.Numbered s'.function ∧ part.2.Numbered s'.function := by
  dsimp only [Scope.aggregateParts]
  refine (numbers_piecesOf hs _).bind fun chunks s₁ _ hs₁ _ => ?_
  split
  · exact .unsupported_bind _
  · refine .get_bind ?_
    split
    · next parts hparts =>
      refine .pure hs₁ fun part hpart => ?_
      obtain ⟨⟨⟨reg, p⟩, root⟩, hzip, rfl⟩ := List.mem_map.mp hpart
      exact ⟨Operand.numbered_physicalReg _ _, hs₁.homeRegisters? hparts _ (List.of_mem_zip hzip).1⟩
    · refine (numbers_location hs₁ value _).bind fun location s₂ _ hs₂ hlocation => ?_
      refine .pure hs₂ fun part hpart => ?_
      obtain ⟨⟨p, root⟩, hzip, rfl⟩ := List.mem_map.mp hpart
      exact ⟨Operand.numbered_physicalReg _ _, hlocation.piece p⟩

/-- The register of an argument and what is copied there. -/
structure Placed.Numbered (f : Machine.Function) (p : Placed) : Prop where
  dest : p.dest.Numbered f
  source : ∀ source, p.argument = .copy source → source.Numbered f

theorem Placed.Numbered.mono {p : Placed} {f g : Machine.Function} (hp : p.Numbered f)
    (hfg : f.Extends g) : p.Numbered g :=
  ⟨hp.dest.mono hfg, fun source hsource => (hp.source source hsource).mono hfg⟩

theorem Placed.numbered_copy {f : Machine.Function} {dest source : Operand}
    (hdest : dest.Numbered f) (hsource : source.Numbered f) :
    (⟨dest, .copy source⟩ : Placed).Numbered f :=
  ⟨hdest, fun _ h => by cases h; exact hsource⟩

theorem numbers_stagePlaced (hs : s.Numbered) {dest source : Operand}
    (hdest : dest.Numbered s.function) (hsource : source.Numbered s.function) (ty : LowType) :
    Numbers s (do return (⟨dest, .copy (← stage source ty)⟩ : Placed)) fun s' p =>
      p.Numbered s'.function :=
  (numbers_stage hs hsource ty).bind fun _ _ hle hs' hstaged =>
    .pure hs' (Placed.numbered_copy (hdest.mono hle) hstaged)

theorem numbers_placeReturnBuffer (hs : s.Numbered) (arg : Ir.Value) :
    Numbers s (c.placeReturnBuffer arg) fun s' p => p.Numbered s'.function := by
  refine .get_bind ?_
  split
  · exact .pure hs ⟨Operand.numbered_physicalReg _ _, nofun⟩
  · refine (numbers_operand hs arg).bind fun source s₁ _ hs₁ hsource => ?_
    exact numbers_stagePlaced hs₁ (Operand.numbered_physicalReg _ _) hsource _

theorem numbers_placeAggregate (hs : s.Numbered) (callee : String) (index : Nat) (arg : Ir.Value)
    (cursor : Cursor) : Numbers s (c.placeAggregate callee index arg cursor) fun s' r =>
      ∀ p ∈ r.1, p.Numbered s'.function := by
  refine (numbers_fitsRegisters hs arg.ty).bind fun fits s₁ _ hs₁ _ => ?_
  split
  · exact .unsupported_bind _
  · refine (numbers_aggregateParts hs₁ arg _).bind fun parts s₂ _ hs₂ hparts => ?_
    refine (Upholds.mapM hs₂ (fun _ _ p hle hp => hp.mono hle) fun part hpart s' hle hs' => ?_).bind
      fun placed s₃ _ hs₃ hplaced => .pure hs₃ hplaced
    obtain ⟨hdest, hsource⟩ := hparts part hpart
    exact numbers_stagePlaced hs' (hdest.mono hle) (hsource.mono hle) _

theorem numbers_placeScalar (hs : s.Numbered) (callee : String) (arg : Ir.Value)
    (cursor : Cursor) :
    Numbers s (c.placeScalar callee arg cursor) fun s' r => r.1.Numbered s'.function := by
  dsimp only [Scope.placeScalar]
  refine (numbers_check hs _).bind fun root s₁ _ hs₁ _ => .get_bind ?_
  split
  · exact .pure hs₁ ⟨Operand.numbered_physicalReg _ _, nofun⟩
  · refine (numbers_operand hs₁ arg).bind fun source s₂ _ hs₂ hsource => ?_
    refine (numbers_stage hs₂ hsource _).bind fun staged s₃ _ hs₃ hstaged => ?_
    exact .pure hs₃ (Placed.numbered_copy (Operand.numbered_physicalReg _ _) hstaged)

theorem numbers_placeArguments (hs : s.Numbered) (callee : String) (returnBuffer : Option Nat)
    (args : List (Ir.Value × Nat)) (cursor : Cursor) :
    Numbers s (c.placeArguments callee returnBuffer args cursor) fun s' placed =>
      ∀ p ∈ placed, p.Numbered s'.function := by
  induction args generalizing s cursor with
  | nil => exact .pure hs (by simp)
  | cons arg args ih =>
    unfold Scope.placeArguments
    dsimp only
    split
    · refine (numbers_placeReturnBuffer hs arg.1).bind fun placed s₁ _ hs₁ hplaced => ?_
      exact (ih hs₁ cursor).bind fun rest s₂ hle hs₂ hrest =>
        .pure hs₂ (List.forall_mem_cons.mpr ⟨hplaced.mono hle, hrest⟩)
    · split
      · refine (numbers_placeAggregate hs callee _ arg.1 cursor).bind fun r s₁ _ hs₁ hplaced => ?_
        exact (ih hs₁ r.2).bind fun rest s₂ hle hs₂ hrest =>
          .pure hs₂ (List.forall_mem_append.mpr ⟨fun p hp => (hplaced p hp).mono hle, hrest⟩)
      · refine (numbers_placeScalar hs callee arg.1 cursor).bind fun r s₁ _ hs₁ hplaced => ?_
        exact (ih hs₁ r.2).bind fun rest s₂ hle hs₂ hrest =>
          .pure hs₂ (List.forall_mem_cons.mpr ⟨hplaced.mono hle, hrest⟩)

theorem numbers_emitPlaced (hs : s.Numbered) {p : Placed} (hp : p.Numbered s.function) :
    Numbers s (c.emitPlaced p) fun _ _ => True := by
  obtain ⟨dest, argument⟩ := p
  cases argument with
  | copy source => exact numbers_emitInto hs hp.dest (hp.source source rfl)
  | address value => exact numbers_emitAddress hs hp.dest value

theorem numbers_receiveAggregate (hs : s.Numbered) (callee : String) (result : Ir.TempId)
    (ty : Ir.Ty) : Numbers s (c.receiveAggregate callee result ty) fun _ _ => True := by
  refine (numbers_fitsRegisters hs ty).bind fun fits s₁ _ hs₁ _ => ?_
  split
  · exact .unsupported_bind _
  · refine (numbers_size hs₁ ty).bind fun bytes s₂ _ hs₂ _ => ?_
    refine (numbers_freshSlot hs₂ bytes).bind fun slot s₃ _ hs₃ hslot => ?_
    refine (numbers_piecesOf hs₃ ty).bind fun chunks s₄ hle₄ hs₄ _ => ?_
    have hbase : (Operand.stack slot 0 c.target.pointerType).Numbered s₄.function :=
      hle₄.slots hslot
    refine (Upholds.forM hs₄ fun part _ s' hle hs' => numbers_emit hs' ?_).bind
      fun _ s₅ hle₅ hs₅ _ => ?_
    · simpa using ⟨(hbase.mono hle).piece part.1, Operand.numbered_physicalReg _ _⟩
    · exact numbers_setHome hs₅ _ (hbase.mono hle₅)

theorem numbers_receiveScalar (hs : s.Numbered) (result : Ir.TempId) (ty : Ir.Ty) :
    Numbers s (c.receiveScalar result ty) fun _ _ => True := by
  refine (numbers_check hs _).bind fun root s₁ _ hs₁ _ => ?_
  refine (numbers_tempReg hs₁ result _).bind fun dest s₂ _ hs₂ hdest => numbers_emit hs₂ ?_
  simpa using ⟨hdest, Operand.numbered_physicalReg _ _⟩

theorem numbers_lowerCall (hs : s.Numbered) (result : Option Ir.TempId) (callee : String)
    (args : List Ir.Value) (ty : Ir.Ty) (returnBuffer : Option Nat) :
    Numbers s (c.lowerCall result callee args ty returnBuffer) fun _ _ => True := by
  have hcaller : s.function.Widens { s.function with isCaller := true } :=
    ⟨Nat.le_refl _, rfl, rfl⟩
  refine (numbers_modify (g := fun s => { s with function := { s.function with isCaller := true } })
    hcaller.toExtends (hs.withFunction (hcaller.drawn hs.drawn) hcaller.toExtends rfl)).bind
    fun _ s₁ _ hs₁ _ => ?_
  refine (numbers_placeArguments hs₁ callee returnBuffer _ _).bind
    fun placed s₂ _ hs₂ hplaced => ?_
  refine (Upholds.forM hs₂ fun p hp s' hle hs' =>
    numbers_emitPlaced hs' ((hplaced p hp).mono hle)).bind fun _ s₃ _ hs₃ _ => ?_
  refine (numbers_emit hs₃ (by simp)).bind fun _ s₄ _ hs₄ _ => ?_
  split
  · exact .pure hs₄ trivial
  · split
    · exact numbers_receiveAggregate hs₄ callee _ ty
    · exact numbers_receiveScalar hs₄ _ ty

theorem numbers_lowerReturn (hs : s.Numbered) (value : Option Ir.Value) :
    Numbers s (c.lowerReturn value) fun _ _ => True := by
  cases value with
  | none => exact numbers_emit hs (by simp)
  | some value =>
    dsimp only [Scope.lowerReturn]
    split
    · refine (numbers_fitsRegisters hs _).bind fun fits s₁ _ hs₁ _ => ?_
      split
      · exact .unsupported_bind _
      · refine (numbers_aggregateParts hs₁ value _).bind fun parts s₂ _ hs₂ hparts => ?_
        refine (Upholds.forM hs₂ fun part hpart s' hle hs' => ?_).bind fun _ s₃ _ hs₃ _ => ?_
        · obtain ⟨hdest, hsource⟩ := hparts part hpart
          exact numbers_emitInto hs' (hdest.mono hle) (hsource.mono hle)
        · exact numbers_emit hs₃ (by simp)
    · refine (numbers_operand hs value).bind fun operand s₁ _ hs₁ hoperand => ?_
      split
      · refine (numbers_check hs₁ _).bind fun root s₂ hle₂ hs₂ _ => ?_
        refine (numbers_emit hs₂ ?_).bind fun _ s₃ _ hs₃ _ => numbers_emit hs₃ (by simp)
        simpa using ⟨Operand.numbered_physicalReg _ _, hoperand.mono hle₂⟩
      · exact numbers_emit hs₁ (by simpa using hoperand)

/-! ## Instructions -/

theorem numbers_lowerCompare (hs : s.Numbered) (result : Ir.TempId) (rel : Ir.Relation)
    (lhs rhs : Ir.Value) : Numbers s (c.lowerCompare result rel lhs rhs) fun _ _ => True := by
  dsimp only [Scope.lowerCompare]
  refine (numbers_operand hs lhs).bind fun lhs' s₁ _ hs₁ hlhs => ?_
  refine (numbers_operand hs₁ rhs).bind fun rhs' s₂ hle₂ hs₂ hrhs => ?_
  refine (numbers_tempReg hs₂ result _).bind fun dest s₃ hle₃ hs₃ hdest => ?_
  refine numbers_modify (.refl s₃) (hs₃.push ?_)
  show ∀ o ∈ [dest, lhs', rhs'], o.Numbered s₃.function
  simpa using ⟨hdest, (hlhs.mono hle₂).mono hle₃, hrhs.mono hle₃⟩

theorem numbers_lowerJumpUnless (hs : s.Numbered) (next target : Option String) :
    Numbers s (Scope.lowerJumpUnless next target) fun _ _ => True := by
  unfold Scope.lowerJumpUnless
  split
  · exact numbers_emit hs (by simp)
  · exact .pure hs trivial

theorem numbers_lowerBranch (hs : s.Numbered) (condition : Ir.Value) (trueTarget : String)
    (falseTarget next : Option String) :
    Numbers s (c.lowerBranch condition trueTarget falseTarget next) fun _ _ => True := by
  unfold Scope.lowerBranch
  split
  · exact numbers_lowerJumpUnless hs _ _
  · refine (numbers_operand hs condition).bind fun operand s₁ _ hs₁ hoperand => numbers_emit hs₁ ?_
    refine List.forall_mem_cons.mpr ⟨hoperand, List.forall_mem_cons.mpr
      ⟨Operand.numbered_label _, fun o ho => ?_⟩⟩
    obtain ⟨label, -, rfl⟩ := List.mem_map.mp ho
    exact Operand.numbered_label _

theorem numbers_lowerInstruction (hs : s.Numbered) (next : Option String) (i : Ir.Instruction) :
    Numbers s (c.lowerInstruction next i) fun _ _ => True := by
  cases i with
  | binary result op lhs rhs ty =>
    refine (numbers_operand hs lhs).bind fun lhs' s₁ _ hs₁ hlhs => ?_
    refine (numbers_operand hs₁ rhs).bind fun rhs' s₂ hle₂ hs₂ hrhs => ?_
    refine (numbers_tempReg hs₂ result _).bind fun dest s₃ hle₃ hs₃ hdest => ?_
    have hlhs₃ := (hlhs.mono hle₂).mono hle₃
    exact numbers_emit hs₃ (by simpa using ⟨hdest, hlhs₃, hrhs.mono hle₃⟩)
  | unary result op operand ty =>
    refine (numbers_operand hs operand).bind fun source s₁ _ hs₁ hsource => ?_
    refine (numbers_tempReg hs₁ result _).bind fun dest s₂ hle₂ hs₂ hdest => ?_
    exact numbers_emit hs₂ (by simpa using ⟨hdest, hsource.mono hle₂⟩)
  | compare result rel lhs rhs => exact numbers_lowerCompare hs result rel lhs rhs
  | stackAlloc result name ty =>
    refine (numbers_size hs ty).bind fun bytes s₁ _ hs₁ _ => ?_
    refine (numbers_freshSlot hs₁ bytes).bind fun slot s₂ _ hs₂ hslot => ?_
    exact numbers_modify (.refl s₂)
      { hs₂ with objects := List.forall_mem_cons.mpr ⟨hslot, hs₂.objects⟩ }
  | load result ptr ty => exact numbers_lowerLoad hs result ptr ty
  | store value ptr => exact numbers_lowerStore hs value ptr
  | elementPtr result source index ty => exact numbers_lowerElementPtr hs result source index
  | memCopy dest source bytes =>
    refine (numbers_location hs dest _).bind fun dest' s₁ _ hs₁ hdest => ?_
    refine (numbers_location hs₁ source _).bind fun source' s₂ hle₂ hs₂ hsource => ?_
    exact numbers_emitCopy hs₂ (hdest.mono hle₂) hsource _
  | call result callee args ty returnBuffer => exact numbers_lowerCall hs result callee args ty _
  | jump target => exact numbers_emit hs (by simp)
  | branch condition trueTarget falseTarget =>
    exact numbers_lowerBranch hs condition trueTarget falseTarget next
  | ret value => exact numbers_lowerReturn hs value

/-! ## Functions -/

theorem numbers_setParameter (hs : s.Numbered) (name : String) {id : RegId}
    (hid : id ∈ s.function.paramIds) (ty : LowType) :
    Numbers s (Scope.setParameter name id ty) fun _ _ => True :=
  numbers_modify (.refl s) { hs with params := List.forall_mem_cons.mpr ⟨hid, hs.params⟩ }

theorem numbers_lowerParameter (hs : s.Numbered) (p : Ir.Parameter) :
    Numbers s (c.lowerParameter p) fun _ _ => True := by
  unfold Scope.lowerParameter
  split
  · exact (numbers_freshParameter hs _ _ _).bind fun _ _ _ hs₁ hid =>
      numbers_setParameter hs₁ _ hid _
  · split
    · refine (numbers_fitsRegisters hs p.ty).bind fun fits s₁ _ hs₁ _ => ?_
      split
      · exact .unsupported_bind _
      · refine (numbers_size hs₁ p.ty).bind fun bytes s₂ _ hs₂ _ => ?_
        refine (numbers_freshSlot hs₂ bytes).bind fun slot s₃ _ hs₃ hslot => ?_
        refine (numbers_piecesOf hs₃ p.ty).bind fun pieces s₄ hle₄ hs₄ _ => ?_
        have hbase : (Operand.stack slot 0 c.target.pointerType).Numbered s₄.function :=
          hle₄.slots hslot
        refine (Upholds.forM hs₄ fun piece _ s' hle hs' => ?_).bind fun _ s₅ hle₅ hs₅ _ => ?_
        · refine (numbers_freshParameter hs' _ _ _).bind fun id s₆ hle₆ hs₆ hid => ?_
          exact numbers_emit hs₆ (by simpa using ⟨((hbase.mono hle).mono hle₆).piece piece, hid⟩)
        · exact numbers_setHome hs₅ _ (hbase.mono hle₅)
    · exact (numbers_freshParameter hs _ _ _).bind fun _ _ _ hs₁ hid =>
        numbers_setParameter hs₁ _ hid _

theorem numbers_closeBlock (hs : s.Numbered) (name : String) :
    Numbers s (Scope.closeBlock name) fun _ _ => True := by
  have hcloses : s.function.Widens { s.function with
      blocks := s.function.blocks ++ [⟨name, s.code.toList⟩] } := ⟨Nat.le_refl _, rfl, rfl⟩
  have hle := hcloses.toExtends
  refine numbers_modify hle ⟨hcloses.drawn hs.drawn, by simp, fun i hi => .mono ?_ hle,
    fun e he => (hs.temps e he).mono hle, hs.params, hs.objects,
    fun e he => (hs.homes e he).mono hle⟩
  obtain ⟨b, hb, hi⟩ := Function.mem_instructions.mp hi
  rcases List.mem_append.mp hb with hb | hb
  · exact hs.blocks i (Function.mem_instructions.mpr ⟨b, hb, hi⟩)
  · rw [List.mem_singleton.mp hb] at hi
    exact hs.code i hi

theorem numbers_lowerBlocks (hs : s.Numbered) (blocks : List Ir.Block) :
    Numbers s (c.lowerBlocks blocks) fun _ _ => True := by
  induction blocks generalizing s with
  | nil => exact .pure hs trivial
  | cons b rest ih =>
    refine (Upholds.forM hs fun i _ s' _ hs' => numbers_lowerInstruction hs' _ i).bind
      fun _ s₁ _ hs₁ _ => ?_
    exact (numbers_closeBlock hs₁ b.name).bind fun _ s₂ _ hs₂ _ => ih hs₂

/-- **Lowered functions are numbered.** -/
theorem numbered_lowerFunction {t : Target} {f : Ir.Function} {g : Machine.Function}
    (h : lowerFunction t f = .ok g) : g.Numbered := by
  obtain ⟨⟨_, s⟩, hrun, h⟩ := bind_eq_ok.mp h
  cases h
  have hbody : Numbers (State.start f) (do
      f.parameters.forM (Scope.lowerParameter ⟨t, f.name⟩)
      Scope.lowerBlocks ⟨t, f.name⟩ f.blocks) fun _ _ => True :=
    (Upholds.forM (State.numbered_start f) fun p _ s' _ hs' => numbers_lowerParameter hs' p).bind
      fun _ s₁ _ hs₁ _ => numbers_lowerBlocks hs₁ f.blocks
  obtain ⟨-, hs, -⟩ := hbody.ok _ _ hrun
  exact ⟨hs.drawn, hs.blocks⟩

theorem proper_lowerFunction {t : Target} {f : Ir.Function} {g : Machine.Function}
    (h : lowerFunction t f = .ok g) : g.All (·.Proper g.paramIds) :=
  (numbered_lowerFunction h).proper

end Lowering

end Retarget
