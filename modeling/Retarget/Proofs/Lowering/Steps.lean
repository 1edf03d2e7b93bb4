import Mathlib.Logic.Relation
import Retarget.Lowering.Function
import Retarget.Proofs.Lowering.Invariants

/-!
# Lowering as steps between states

Whatever lowering does to its state it does in small steps (`Step`): it emits an instruction, takes
numbers and frame objects, or notes where a value lives.  Every lowering function makes such steps
only (`goes_lowerInstruction`), and all but calls and returns emit inner code, which names no
physical register.  What each step keeps holds in every state that the lowering of a function
reaches (`Reaches.keeps`).
-/

namespace Retarget

namespace Machine.Operand

variable (reg : RegId) (slot : Slot) (offset : Int) (name : String) (ty : LowType)

@[simp] theorem isPhysical_virtualReg : (virtualReg reg ty).isPhysical = false := rfl

@[simp] theorem isPhysical_parameter : (parameter reg ty).isPhysical = false := rfl

@[simp] theorem isPhysical_immediate : (immediate offset ty).isPhysical = false := rfl

@[simp] theorem isPhysical_memory : (memory reg offset ty).isPhysical = false := rfl

@[simp] theorem isPhysical_stack : (stack slot offset ty).isPhysical = false := rfl

@[simp] theorem isPhysical_global : (global name ty).isPhysical = false := rfl

@[simp] theorem isPhysical_label : (label name).isPhysical = false := rfl

end Machine.Operand

namespace Machine

def Instruction.isExit (i : Instruction) : Bool := i.isJump || i.isReturn

def GenericOp.isExit (op : GenericOp) : Bool := op.flags.jump || op.flags.ret

theorem GenericOp.ret_eq_false {op : GenericOp} (h : op.isExit = false) : op.flags.ret = false :=
  (Bool.or_eq_false_iff.mp h).2

end Machine

namespace Lowering

open Machine

/-- An instruction inside a function: no call, no return and no physical register. -/
structure IsInner (i : Instruction) : Prop where
  not_call : i.isCall = false
  not_return : i.isReturn = false
  not_physical : ∀ o ∈ i.operands, o.isPhysical = false

/-- Whether the encoding of an operation depends on how wide an operand is, or on where in a frame
object it points. -/
def isSpecial : GenericOp → Bool
  | .lsl | .lsr | .sext | .trunc | .stackAddress => true
  | _ => false

/-- Code that any instruction may be lowered to: neither a shift nor a change of width, and of the
addresses in the frame only those of objects. -/
def IsRoutine (i : Instruction) : Prop :=
  ∀ op, i.generic? = some op → isSpecial op →
    ∃ dest slot ty, i = .generic .stackAddress [dest, .stack slot 0 ty]

theorem isRoutine_generic {op : GenericOp} (hop : isSpecial op = false) (operands : List Operand) :
    IsRoutine (.generic op operands) := by
  intro op' hop' hspecial
  cases hop'
  rw [hop] at hspecial
  cases hspecial

theorem isRoutine_stackAddress (dest : Operand) (slot : Slot) (ty : LowType) :
    IsRoutine (.generic .stackAddress [dest, .stack slot 0 ty]) :=
  fun _ _ _ => ⟨dest, slot, ty, rfl⟩

/-- The type of the operand for a value: that of an address, the one that a parameter is known by,
or the one that is stated with the value. -/
def OperandType (c : Scope) (params : List (String × RegId × LowType)) (v : Ir.Value)
    (ty : LowType) : Prop :=
  ty = c.target.pointerType ∨
    match v with
    | .param name _ => ∃ id, (name, id, ty) ∈ params
    | .global .. => False
    | v => ty = c.lowType v.ty

/-- The code that an instruction may be lowered to where parameters are known by the types in
`params`. -/
inductive Emits (c : Scope) (params : List (String × RegId × LowType)) :
    Ir.Instruction → Instruction → Prop
  | routine {i : Ir.Instruction} {j : Instruction} (h : IsRoutine j) : Emits c params i j
  | binary {result : Ir.TempId} {op : Ir.BinaryOp} {lhs rhs : Ir.Value} {ty : Ir.Ty} {reg : RegId}
      {lhs' rhs' : Operand} : Emits c params (.binary result op lhs rhs ty)
        (.generic (binaryOp op) [.virtualReg reg (c.lowType ty), lhs', rhs'])
  | unary {result : Ir.TempId} {op : Ir.UnaryOp} {operand : Ir.Value} {ty : Ir.Ty} {reg : RegId}
      {source : Operand} (htype : OperandType c params operand source.ty) :
      Emits c params (.unary result op operand ty)
        (.generic (unaryOp ty op) [.virtualReg reg (c.lowType ty), source])
  | extend {result : Ir.TempId} {base index : Ir.Value} {ty : Ir.Ty} {reg : RegId}
      {narrow : Operand} (hsigned : index.ty.isSigned)
      (htype : OperandType c params index narrow.ty) :
      Emits c params (.elementPtr result base index ty)
        (.generic .sext [.virtualReg reg c.target.offsetType, narrow])

/-- What is noted of a temporary: that it is the address of a frame object, or where the aggregate
lives that it is. -/
inductive Note where
  | object (id : Ir.TempId) (slot : Slot)
  | home (id : Ir.TempId) (home : Home)

def State.note (s : State) : Note → State
  | .object id slot => { s with objects := (id, slot) :: s.objects }
  | .home id home => { s with aggregates := (.temp id, home) :: s.aggregates }

@[simp] theorem State.function_note (s : State) (note : Note) :
    (s.note note).function = s.function := by
  cases note <;> rfl

@[simp] theorem State.code_note (s : State) (note : Note) : (s.note note).code = s.code := by
  cases note <;> rfl

@[simp] theorem State.params_note (s : State) (note : Note) : (s.note note).params = s.params := by
  cases note <;> rfl

/-- One change of the state: emitted instructions are in `E`, and notes in `N`. -/
inductive Step (E : Instruction → Prop) (N : Note → Prop) : State → State → Prop
  | emit {s : State} {i : Instruction} (hi : E i) (hcall : i.isCall → s.function.isCaller) :
    Step E N s (s.append [i])
  | number {s : State} (next : Nat) (frame : Frame) (hle : s.function.nextId ≤ next) :
    Step E N s { s with function := { s.function with nextId := next, frame := frame } }
  | temp {s : State} {id : Ir.TempId} (reg : RegId) (hnew : s.temps.lookup id = none) :
    Step E N s { s with temps := (id, reg) :: s.temps }
  | note {s : State} {note : Note} (h : N note) : Step E N s (s.note note)
  | caller {s : State} : Step E N s { s with function := { s.function with isCaller := true } }

abbrev Evolves (E : Instruction → Prop) (N : Note → Prop) :
    State → State → Prop :=
  Relation.ReflTransGen (Step E N)

/-- The step leads from `s` to a state that `s` evolves into, with an answer that `P` holds of. -/
structure Goes {α : Type} (E : Instruction → Prop) (N : Note → Prop) (s : State)
    (x : Lower α) (P : α → Prop) : Prop where
  ok : ∀ a s', x.run s = .ok (a, s') → Evolves E N s s' ∧ P a

variable {E : Instruction → Prop} {N : Note → Prop} {s s' : State} {α β : Type}
  {P : α → Prop} {Q : β → Prop}

/-! ## Composition -/

instance : IsPreorder State (Evolves E N) where
  refl _ := .refl
  trans _ _ _ := .trans

theorem goes_iff_upholds {x : Lower α} :
    Goes E N s x P ↔ Upholds (Evolves E N) (fun _ => True) s x fun _ => P := by
  constructor
  · exact fun h => ⟨fun a s' hrun => (h.ok a s' hrun).imp_right fun ha => ⟨trivial, ha⟩⟩
  · exact fun h => ⟨fun a s' hrun => (h.ok a s' hrun).imp_right (·.2)⟩

namespace Goes

theorem pure {a : α} (h : P a) : Goes E N s (Pure.pure a) P :=
  goes_iff_upholds.mpr (.pure trivial h)

theorem bind {x : Lower α} {g : α → Lower β} (hx : Goes E N s x P)
    (hg : ∀ a s', Evolves E N s s' → P a → Goes E N s' (g a) Q) : Goes E N s (x >>= g) Q := by
  refine goes_iff_upholds.mpr ((goes_iff_upholds.mp hx).bind fun a s' hs' _ ha => ?_)
  exact goes_iff_upholds.mp (hg a s' hs' ha)

theorem mono {x : Lower α} {P' : α → Prop} (hx : Goes E N s x P) (h : ∀ a, P a → P' a) :
    Goes E N s x P' :=
  goes_iff_upholds.mpr ((goes_iff_upholds.mp hx).mono fun _ a _ => h a)

theorem get_bind {g : State → Lower β} (h : Goes E N s (g s) Q) : Goes E N s (get >>= g) Q :=
  ⟨h.ok⟩

theorem check {x : Result α} (h : ∀ a, x = .ok a → P a) : Goes E N s (check x) P :=
  goes_iff_upholds.mpr (.check trivial h)

theorem unsupported (detail : String) : Goes E N s (unsupported detail) P := ⟨nofun⟩

theorem unsupported_bind {g : α → Lower β} (detail : String) :
    Goes E N s (Lowering.unsupported detail >>= g) Q :=
  ⟨nofun⟩

theorem modify {g : State → State} (h : Step E N s (g s)) :
    Goes E N s (modify g) fun _ => True :=
  goes_iff_upholds.mpr (.modify (.single h) trivial trivial)

theorem forM {l : List α} {g : α → Lower Unit}
    (hg : ∀ a ∈ l, ∀ s', Evolves E N s s' → Goes E N s' (g a) fun _ => True) :
    Goes E N s (l.forM g) fun _ => True :=
  goes_iff_upholds.mpr (.forM trivial fun a ha s' hs' _ => goes_iff_upholds.mp (hg a ha s' hs'))

theorem mapM {l : List α} {g : α → Lower β}
    (hg : ∀ a ∈ l, ∀ s', Evolves E N s s' → Goes E N s' (g a) Q) :
    Goes E N s (l.mapM g) fun bs => ∀ b ∈ bs, Q b :=
  goes_iff_upholds.mpr (.mapM trivial (fun _ _ _ _ hb => hb) fun a ha s' hs' _ =>
    goes_iff_upholds.mp (hg a ha s' hs'))

end Goes

/-! ## Single steps -/

theorem goes_emit {op : GenericOp} {operands : List Operand} (hi : E (.generic op operands))
    (hcall : (Instruction.generic op operands).isCall → s.function.isCaller) :
    Goes E N s (emit op operands) fun _ => True := by
  refine ⟨fun a s' hrun => ?_⟩
  rw [run_emit] at hrun
  cases hrun
  exact ⟨.single (.emit hi hcall), trivial⟩

theorem goes_freshId : Goes E N s freshId fun _ => True := by
  refine ⟨fun id s' hrun => ?_⟩
  obtain ⟨-, -, rfl⟩ := run_freshId_eq_ok.mp hrun
  exact ⟨.single (.number _ s.function.frame (Nat.le_succ _)), trivial⟩

theorem goes_freshReg (ty : LowType) :
    Goes E N s (freshReg ty) fun o => ∃ id, o = .virtualReg id ty :=
  goes_freshId.bind fun id _ _ _ => .pure ⟨id, rfl⟩

theorem goes_freshSlot (bytes : Nat) : Goes E N s (freshSlot bytes) fun _ => True := by
  refine ⟨fun slot s' hrun => ?_⟩
  obtain ⟨-, -, rfl⟩ := run_freshSlot_eq_ok.mp hrun
  exact ⟨.single (.number _ _ (Nat.le_succ _)), trivial⟩

theorem goes_tempReg (id : Ir.TempId) (ty : LowType) :
    Goes E N s (tempReg id ty) fun o => ∃ reg, o = .virtualReg reg ty := by
  refine .get_bind ?_
  split
  · exact .pure ⟨_, rfl⟩
  · next hnone =>
    refine ⟨fun o s' hrun => ?_⟩
    obtain ⟨reg, s₁, hfresh, hrun⟩ := run_bind_eq_ok.mp hrun
    obtain ⟨-, -, rfl⟩ := run_freshId_eq_ok.mp hfresh
    cases hrun
    exact ⟨.tail (.single (.number _ s.function.frame (Nat.le_succ _))) (.temp reg hnone), reg, rfl⟩

theorem goes_size {c : Scope} (ty : Ir.Ty) : Goes E N s (c.size ty) fun _ => True :=
  .check fun _ _ => trivial

theorem goes_fitsRegisters {c : Scope} (ty : Ir.Ty) :
    Goes E N s (c.fitsRegisters ty) fun _ => True :=
  (goes_size ty).bind fun _ _ _ _ =>
    (Goes.check (P := fun _ => True) fun _ _ => trivial).bind fun _ _ _ _ => .pure trivial

theorem goes_piecesOf {c : Scope} (ty : Ir.Ty) :
    Goes E N s (c.piecesOf ty) fun ps => ∃ bytes, ty.size c.target.pointerBytes = .ok bytes ∧
      ps = pieces c.target.pointerBytes bytes := by
  refine ⟨fun ps s' hrun => ?_⟩
  obtain ⟨bytes, hsize, rfl, rfl⟩ := run_piecesOf_eq_ok.mp hrun
  exact ⟨.refl, bytes, hsize, rfl⟩

theorem goes_setHome {id : Ir.TempId} {home : Home} (h : N (.home id home)) :
    Goes E N s (setHome (.temp id) home) fun _ => True :=
  .modify (.note h)

theorem isInner_generic {op : GenericOp} (operands : List Operand)
    (hop : op.flags.call = false ∧ op.flags.ret = false)
    (hoperands : ∀ o ∈ operands, o.isPhysical = false) : IsInner (.generic op operands) :=
  ⟨hop.1, hop.2, hoperands⟩

theorem goes_emit_of_not_call {op : GenericOp} {operands : List Operand}
    (hi : E (.generic op operands)) (hop : op.flags.call = false) :
    Goes E N s (emit op operands) fun _ => True := by
  refine goes_emit hi fun hcall => ?_
  have hnot : (Instruction.generic op operands).isCall = false := hop
  rw [hnot] at hcall
  cases hcall

theorem goes_emit_inner {op : GenericOp} {operands : List Operand}
    (hop : op.flags.call = false ∧ op.flags.ret = false ∧ isSpecial op = false)
    (hoperands : ∀ o ∈ operands, o.isPhysical = false)
    (hi : IsInner (.generic op operands) → IsRoutine (.generic op operands) →
      E (.generic op operands)) :
    Goes E N s (emit op operands) fun _ => True :=
  goes_emit_of_not_call (hi (isInner_generic _ ⟨hop.1, hop.2.1⟩ hoperands)
    (isRoutine_generic hop.2.2 _)) hop.1

theorem params_of_evolves (h : Evolves E N s s') : s'.params = s.params := by
  induction h with
  | refl => rfl
  | tail _ hstep ih =>
    cases hstep with
    | note h => rwa [State.params_note]
    | _ => exact ih

/-! ## Values -/

section Inner

variable {c : Scope} (hE : ∀ i, IsInner i → IsRoutine i → i.isExit = false → E i)
include hE

theorem goes_inner {op : GenericOp} {operands : List Operand}
    (hop : op.flags.call = false ∧ op.isExit = false ∧ isSpecial op = false)
    (hoperands : ∀ o ∈ operands, o.isPhysical = false) :
    Goes E N s (emit op operands) fun _ => True :=
  goes_emit_inner ⟨hop.1, GenericOp.ret_eq_false hop.2.1, hop.2.2⟩ hoperands
    fun hinner hroutine => hE _ hinner hroutine hop.2.1

theorem goes_emitAddress {dest : Operand} (hdest : dest.isPhysical = false) (value : Ir.Value) :
    Goes E N s (c.emitAddress dest value) fun _ => True := by
  refine .get_bind ?_
  split
  · next slot _ =>
    have hinner : IsInner (.generic .stackAddress [dest, .stack slot 0 c.target.pointerType]) :=
      isInner_generic _ ⟨rfl, rfl⟩ (by simp [hdest])
    exact goes_emit_of_not_call (hE _ hinner (isRoutine_stackAddress _ _ _) rfl) rfl
  · exact goes_inner hE ⟨rfl, rfl, rfl⟩ (by simp [hdest])
  · exact .pure trivial

theorem goes_addressOf (value : Ir.Value) :
    Goes E N s (c.addressOf value) fun o => ∃ id, o = .virtualReg id c.target.pointerType := by
  refine (goes_freshReg _).bind fun dest s₁ _ hdest => ?_
  obtain ⟨id, rfl⟩ := hdest
  exact (goes_emitAddress hE rfl value).bind fun _ _ _ _ => .pure ⟨id, rfl⟩

/-- An operand that is no physical register, and has one of the types that a value may have. -/
structure IsScalar (c : Scope) (params : List (String × RegId × LowType)) (v : Ir.Value)
    (o : Operand) : Prop where
  not_physical : o.isPhysical = false
  type : OperandType c params v o.ty

theorem goes_operand (value : Ir.Value) :
    Goes E N s (c.operand value) (IsScalar c s.params value) := by
  have haddress : Goes E N s (c.addressOf value) (IsScalar c s.params value) := by
    refine (goes_addressOf hE value).mono fun o ho => ?_
    obtain ⟨id, rfl⟩ := ho
    exact ⟨rfl, .inl rfl⟩
  unfold Scope.operand
  split
  · exact .pure ⟨rfl, .inr rfl⟩
  · exact .unsupported _
  · exact haddress
  · refine .get_bind ?_
    split
    · exact haddress
    · refine (goes_tempReg _ _).mono fun o ho => ?_
      obtain ⟨reg, rfl⟩ := ho
      exact ⟨rfl, .inr rfl⟩
  · refine .get_bind ?_
    split
    · next id ty hlookup =>
      have hmem : (_, id, ty) ∈ s.params := mem_of_lookup_eq_some hlookup
      exact .pure ⟨rfl, .inr ⟨id, hmem⟩⟩
    · refine .get_bind ?_
      split
      · exact haddress
      · exact .unsupported _

theorem goes_location (ptr : Ir.Value) (ty : LowType) :
    Goes E N s (c.location ptr ty) fun o => o.isPhysical = false := by
  refine .get_bind ?_
  split
  · exact .pure rfl
  · split
    · exact .unsupported _
    · refine (goes_operand hE ptr).bind fun base s₁ _ _ => ?_
      split
      · exact .pure rfl
      · exact .unsupported _

end Inner

theorem isPhysical_piece {location : Operand} (h : location.isPhysical = false) (p : Piece) :
    (p.of location).isPhysical = false := by
  obtain ⟨kind, ty, regClass⟩ := location
  cases kind with
  | physicalReg r => cases h
  | _ => rfl

/-! ## Memory -/

/-- Where a loaded aggregate of a type may live: in registers for all of its pieces, or in a frame
object. -/
def NotesLoad (registerBytes : Nat) (ty : Ir.Ty) : Home → Prop
  | .registers parts => ∃ bytes, ty.size registerBytes = .ok bytes ∧
      parts.map (·.2) = pieces registerBytes bytes
  | .slot _ => True

section Inner

variable {c : Scope} (hE : ∀ i, IsInner i → IsRoutine i → i.isExit = false → E i)
include hE

theorem goes_emitPieceCopy {dest source : Operand} (hdest : dest.isPhysical = false)
    (hsource : source.isPhysical = false) (p : Piece) :
    Goes E N s (Scope.emitPieceCopy dest source p) fun _ => True := by
  refine (goes_freshReg _).bind fun temp s₁ _ htemp => ?_
  obtain ⟨id, rfl⟩ := htemp
  refine (goes_inner hE ⟨rfl, rfl, rfl⟩ ?_).bind fun _ s₂ _ _ => goes_inner hE ⟨rfl, rfl, rfl⟩ ?_
  · simp [isPhysical_piece hsource p]
  · simp [isPhysical_piece hdest p]

theorem goes_emitCopy {dest source : Operand} (hdest : dest.isPhysical = false)
    (hsource : source.isPhysical = false) (bytes : Nat) :
    Goes E N s (c.emitCopy dest source bytes) fun _ => True :=
  .forM fun p _ _ _ => goes_emitPieceCopy hE hdest hsource p

theorem goes_emitPieceLoad {location : Operand} (h : location.isPhysical = false) (p : Piece) :
    Goes E N s (Scope.emitPieceLoad location p) fun part => part.2 = p := by
  refine goes_freshId.bind fun id s₁ _ _ => ?_
  refine (goes_inner hE ⟨rfl, rfl, rfl⟩ ?_).bind fun _ s₂ _ _ => .pure rfl
  simp [isPhysical_piece h p]

theorem goes_mapM_emitPieceLoad {location : Operand} (h : location.isPhysical = false)
    (ps : List Piece) :
    Goes E N s (ps.mapM (Scope.emitPieceLoad location)) fun parts => parts.map (·.2) = ps := by
  induction ps generalizing s with
  | nil => exact .pure rfl
  | cons p ps ih =>
    rw [List.mapM_cons]
    refine (goes_emitPieceLoad hE h p).bind fun part s₁ _ hpart => ?_
    refine ih.bind fun parts s₂ _ hparts => .pure ?_
    rw [List.map_cons, hpart, hparts]

theorem goes_lowerLoad (result : Ir.TempId) (ptr : Ir.Value) (ty : Ir.Ty)
    (hN : ∀ home, NotesLoad c.target.pointerBytes ty home → N (.home result home)) :
    Goes E N s (c.lowerLoad result ptr ty) fun _ => True := by
  unfold Scope.lowerLoad
  split
  · refine (goes_location hE ptr _).bind fun location s₁ _ hlocation => ?_
    refine (goes_fitsRegisters ty).bind fun fits s₂ _ _ => ?_
    split
    · refine (goes_piecesOf ty).bind fun ps s₃ _ hps => ?_
      obtain ⟨bytes, hsize, rfl⟩ := hps
      refine (goes_mapM_emitPieceLoad hE hlocation _).bind fun parts s₄ _ hparts => ?_
      exact goes_setHome (hN _ ⟨bytes, hsize, hparts⟩)
    · refine (goes_size ty).bind fun bytes s₃ _ _ => ?_
      refine (goes_freshSlot bytes).bind fun slot s₄ _ _ => ?_
      refine (goes_emitCopy hE (by simp) hlocation bytes).bind fun _ s₅ _ _ => ?_
      exact goes_setHome (hN _ trivial)
  · refine (goes_location hE ptr _).bind fun location s₁ _ hlocation => ?_
    refine (goes_tempReg result _).bind fun dest s₂ _ hdest => ?_
    obtain ⟨reg, rfl⟩ := hdest
    exact goes_inner hE ⟨rfl, rfl, rfl⟩ (by simp [hlocation])

theorem goes_lowerStore (value ptr : Ir.Value) :
    Goes E N s (c.lowerStore value ptr) fun _ => True := by
  dsimp only [Scope.lowerStore]
  split
  · refine (goes_location hE ptr _).bind fun location s₁ _ hlocation => .get_bind ?_
    split
    · refine .forM fun part _ s' _ => goes_inner hE ⟨rfl, rfl, rfl⟩ ?_
      simp [isPhysical_piece hlocation part.2]
    · refine (goes_location hE value _).bind fun source s₂ _ hsource => ?_
      refine (goes_size _).bind fun bytes s₃ _ _ => ?_
      exact goes_emitCopy hE hlocation hsource bytes
  · refine (goes_location hE ptr _).bind fun location s₁ _ hlocation => ?_
    refine (goes_operand hE value).bind fun source s₂ _ hsource => ?_
    exact goes_inner hE ⟨rfl, rfl, rfl⟩ (by simp [hlocation, hsource.not_physical])

theorem goes_emitOffset {dest base : Operand} (hdest : dest.isPhysical = false)
    (hbase : base.isPhysical = false) (offset : Int) :
    Goes E N s (c.emitOffset dest base offset) fun _ => True := by
  unfold Scope.emitOffset
  split
  · exact goes_inner hE ⟨rfl, rfl, rfl⟩ (by simp [hdest, hbase])
  · exact goes_inner hE ⟨rfl, rfl, rfl⟩ (by simp [hdest, hbase])

theorem goes_wideIndex (index : Ir.Value) (hextend : index.ty.isSigned → ∀ reg narrow,
      IsInner (.generic .sext [.virtualReg reg c.target.offsetType, narrow]) →
      OperandType c s.params index narrow.ty →
      E (.generic .sext [.virtualReg reg c.target.offsetType, narrow])) :
    Goes E N s (c.wideIndex index) fun o => o.isPhysical = false := by
  refine (goes_operand hE index).bind fun narrow s₁ _ hnarrow => ?_
  split
  · refine (goes_freshReg _).bind fun wide s₂ _ hwide => ?_
    obtain ⟨id, rfl⟩ := hwide
    refine Goes.bind (P := fun _ => True) ?_ fun _ s₃ _ _ => .pure rfl
    split
    · next hsigned =>
      have hinner : IsInner (.generic .sext [.virtualReg id c.target.offsetType, narrow]) :=
        isInner_generic _ ⟨rfl, rfl⟩ (by simp [hnarrow.not_physical])
      exact goes_emit_of_not_call (hextend hsigned id narrow hinner hnarrow.type) rfl
    · exact goes_inner hE ⟨rfl, rfl, rfl⟩ (by simp [hnarrow.not_physical])
  · exact .pure hnarrow.not_physical

theorem goes_scaledIndex (index : Ir.Value) (element : Int)
    (hextend : index.ty.isSigned → ∀ reg narrow,
      IsInner (.generic .sext [.virtualReg reg c.target.offsetType, narrow]) →
      OperandType c s.params index narrow.ty →
      E (.generic .sext [.virtualReg reg c.target.offsetType, narrow])) :
    Goes E N s (c.scaledIndex index element) fun o => o.isPhysical = false := by
  refine (goes_wideIndex hE index hextend).bind fun wide s₁ _ hwide => ?_
  by_cases helement : element = 1
  · rw [if_pos helement]
    exact .pure hwide
  · rw [if_neg helement]
    refine (goes_freshReg _).bind fun product s₂ _ hproduct => ?_
    obtain ⟨id, rfl⟩ := hproduct
    exact (goes_inner hE ⟨rfl, rfl, rfl⟩ (by simp [hwide])).bind fun _ s₃ _ _ => .pure rfl

theorem goes_lowerElementPtr (result : Ir.TempId) (source index : Ir.Value)
    (hextend : index.ty.isSigned → ∀ reg narrow,
      IsInner (.generic .sext [.virtualReg reg c.target.offsetType, narrow]) →
      OperandType c s.params index narrow.ty →
      E (.generic .sext [.virtualReg reg c.target.offsetType, narrow])) :
    Goes E N s (c.lowerElementPtr result source index) fun _ => True := by
  dsimp only [Scope.lowerElementPtr]
  refine (goes_operand hE source).bind fun base s₁ hs₁ hscalar => ?_
  have hbase := hscalar.not_physical
  refine (goes_tempReg result _).bind fun dest s₂ hs₂ hdest => ?_
  obtain ⟨reg, rfl⟩ := hdest
  split
  · split
    · refine (Goes.check (P := fun _ => True) fun _ _ => trivial).bind fun offset s₃ _ _ => ?_
      cases offset with
      | none => exact .unsupported _
      | some offset => exact goes_emitOffset hE rfl hbase _
    · exact .unsupported _
  · refine (goes_size _).bind fun bytes s₃ hs₃ _ => ?_
    split
    · refine (Goes.check (P := fun _ => True) fun _ _ => trivial).bind fun offset s₄ _ _ => ?_
      exact goes_emitOffset hE rfl hbase offset
    · rw [← params_of_evolves ((hs₁.trans hs₂).trans hs₃)] at hextend
      refine (goes_scaledIndex hE index _ hextend).bind fun scaled s₄ _ hscaled => ?_
      exact goes_inner hE ⟨rfl, rfl, rfl⟩ (by simp [hbase, hscaled])

theorem goes_lowerCompare (result : Ir.TempId) (rel : Ir.Relation) (lhs rhs : Ir.Value) :
    Goes E N s (c.lowerCompare result rel lhs rhs) fun _ => True := by
  dsimp only [Scope.lowerCompare]
  refine (goes_operand hE lhs).bind fun lhs' s₁ _ hlhs => ?_
  refine (goes_operand hE rhs).bind fun rhs' s₂ _ hrhs => ?_
  refine (goes_tempReg result _).bind fun dest s₃ _ hdest => ?_
  obtain ⟨reg, rfl⟩ := hdest
  refine ⟨fun a s' hrun => ?_⟩
  cases hrun
  have hinner : IsInner ((Instruction.generic (if lhs.ty.isFloat then .cmpf else .cmp)
      [.virtualReg reg (.integer 1), lhs', rhs']).withRelation (relation rel)) := by
    refine ⟨?_, ?_, ?_⟩
    · split <;> rfl
    · split <;> rfl
    · show ∀ o ∈ [Operand.virtualReg reg (.integer 1), lhs', rhs'], o.isPhysical = false
      simp [hlhs.not_physical, hrhs.not_physical]
  have hroutine : IsRoutine ((Instruction.generic (if lhs.ty.isFloat then .cmpf else .cmp)
      [.virtualReg reg (.integer 1), lhs', rhs']).withRelation (relation rel)) := by
    rintro op ⟨⟩ hspecial
    split at hspecial <;> cases hspecial
  have hexit : ((Instruction.generic (if lhs.ty.isFloat then .cmpf else .cmp)
      [.virtualReg reg (.integer 1), lhs', rhs']).withRelation (relation rel)).isExit = false := by
    split <;> rfl
  have hstep := Step.emit (N := N) (s := s₃) (hE _ hinner hroutine hexit) fun hcall => by
    rw [hinner.not_call] at hcall
    cases hcall
  refine ⟨.single ?_, trivial⟩
  simpa [State.append] using hstep

/-! ## Arguments -/

theorem goes_stage {source : Operand} (hsource : source.isPhysical = false) (ty : LowType) :
    Goes E N s (stage source ty) fun o => o.isPhysical = false := by
  refine .get_bind ?_
  split
  · refine (goes_freshReg ty).bind fun staged s₁ _ hstaged => ?_
    obtain ⟨id, rfl⟩ := hstaged
    refine (goes_inner hE ?_ (by simp [hsource])).bind fun _ s₂ _ _ => .pure rfl
    rw [moveOp]
    split
    · exact ⟨rfl, rfl, rfl⟩
    · split <;> exact ⟨rfl, rfl, rfl⟩
  · exact .pure hsource

theorem goes_aggregateParts (value : Ir.Value) (registers : List RegId) :
    Goes E N s (c.aggregateParts value registers) fun parts =>
      ∀ part ∈ parts, part.2.isPhysical = false := by
  dsimp only [Scope.aggregateParts]
  refine (goes_piecesOf _).bind fun chunks s₁ _ _ => ?_
  split
  · exact .unsupported_bind _
  · refine .get_bind ?_
    split
    · refine .pure fun part hpart => ?_
      obtain ⟨entry, -, rfl⟩ := List.mem_map.mp hpart
      rfl
    · refine (goes_location hE value _).bind fun location s₂ _ hlocation => .pure fun part hpart => ?_
      obtain ⟨entry, -, rfl⟩ := List.mem_map.mp hpart
      exact isPhysical_piece hlocation entry.1

theorem goes_placeReturnBuffer (arg : Ir.Value) :
    Goes E N s (c.placeReturnBuffer arg) fun _ => True := by
  refine .get_bind ?_
  split
  · exact .pure trivial
  · refine (goes_operand hE arg).bind fun source s₁ _ hsource => ?_
    exact (goes_stage hE hsource.not_physical _).bind fun _ _ _ _ => .pure trivial

theorem goes_placeAggregate (callee : String) (index : Nat) (arg : Ir.Value) (cursor : Cursor) :
    Goes E N s (c.placeAggregate callee index arg cursor) fun _ => True := by
  refine (goes_fitsRegisters arg.ty).bind fun fits s₁ _ _ => ?_
  split
  · exact .unsupported_bind _
  · refine (goes_aggregateParts hE arg _).bind fun parts s₂ _ hparts => ?_
    refine (Goes.mapM (Q := fun _ => True) fun part hpart s' _ => ?_).bind
      fun _ _ _ _ => .pure trivial
    exact (goes_stage hE (hparts part hpart) _).bind fun _ _ _ _ => .pure trivial

theorem goes_placeScalar (callee : String) (arg : Ir.Value) (cursor : Cursor) :
    Goes E N s (c.placeScalar callee arg cursor) fun _ => True := by
  dsimp only [Scope.placeScalar]
  refine (Goes.check (P := fun _ => True) fun _ _ => trivial).bind fun root s₁ _ _ => .get_bind ?_
  split
  · exact .pure trivial
  · refine (goes_operand hE arg).bind fun source s₂ _ hsource => ?_
    exact (goes_stage hE hsource.not_physical _).bind fun _ _ _ _ => .pure trivial

theorem goes_placeArguments (callee : String) (returnBuffer : Option Nat)
    (args : List (Ir.Value × Nat)) (cursor : Cursor) :
    Goes E N s (c.placeArguments callee returnBuffer args cursor) fun _ => True := by
  induction args generalizing s cursor with
  | nil => exact .pure trivial
  | cons arg args ih =>
    unfold Scope.placeArguments
    dsimp only
    split
    · refine (goes_placeReturnBuffer hE arg.1).bind fun placed s₁ _ _ => ?_
      exact (ih cursor).bind fun _ _ _ _ => .pure trivial
    · split
      · refine (goes_placeAggregate hE callee _ arg.1 cursor).bind fun r s₁ _ _ => ?_
        exact (ih r.2).bind fun _ _ _ _ => .pure trivial
      · refine (goes_placeScalar hE callee arg.1 cursor).bind fun r s₁ _ _ => ?_
        exact (ih r.2).bind fun _ _ _ _ => .pure trivial

end Inner

/-! ## Control -/

section Inner

variable {c : Scope} (hE : ∀ i, IsInner i → IsRoutine i → E i)
include hE

theorem goes_lowerJumpUnless (next target : Option String) :
    Goes E N s (Scope.lowerJumpUnless next target) fun _ => True := by
  unfold Scope.lowerJumpUnless
  split
  · exact goes_emit_inner ⟨rfl, rfl, rfl⟩ (by simp) (hE _)
  · exact .pure trivial

theorem goes_lowerBranch (condition : Ir.Value) (trueTarget : String)
    (falseTarget next : Option String) :
    Goes E N s (c.lowerBranch condition trueTarget falseTarget next) fun _ => True := by
  unfold Scope.lowerBranch
  split
  · exact goes_lowerJumpUnless hE _ _
  · refine (goes_operand (fun i hi h _ => hE i hi h) condition).bind fun operand s₁ _ hoperand => ?_
    refine goes_emit_inner ⟨rfl, rfl, rfl⟩ (List.forall_mem_cons.mpr ⟨hoperand.not_physical,
      List.forall_mem_cons.mpr ⟨rfl, fun o ho => ?_⟩⟩) (hE _)
    obtain ⟨name, -, rfl⟩ := List.mem_map.mp ho
    rfl

end Inner

/-! ## Calls and returns -/

theorem isCaller_of_evolves (h : Evolves E N s s') (hs : s.function.isCaller) :
    s'.function.isCaller := by
  induction h with
  | refl => exact hs
  | tail _ hstep ih =>
    cases hstep with
    | note h => rwa [State.function_note]
    | caller => rfl
    | _ => exact ih

section Whole

variable {c : Scope} (hE : ∀ i, IsRoutine i → i.isExit = false → E i)
include hE

theorem goes_straight {op : GenericOp} {operands : List Operand}
    (hop : op.flags.call = false ∧ op.isExit = false ∧ isSpecial op = false) :
    Goes E N s (emit op operands) fun _ => True :=
  goes_emit_of_not_call (hE _ (isRoutine_generic hop.2.2 _) hop.2.1) hop.1

theorem goes_emitInto (dest source : Operand) :
    Goes E N s (emitInto dest source) fun _ => True := by
  refine goes_straight hE ?_
  rw [moveOp]
  split
  · exact ⟨rfl, rfl, rfl⟩
  · split <;> exact ⟨rfl, rfl, rfl⟩

theorem goes_emitPlaced (p : Placed) : Goes E N s (c.emitPlaced p) fun _ => True := by
  rw [Scope.emitPlaced]
  split
  · exact goes_emitInto hE _ _
  · refine .get_bind ?_
    split
    · exact goes_emit_of_not_call (hE _ (isRoutine_stackAddress _ _ _) rfl) rfl
    · exact goes_straight hE ⟨rfl, rfl, rfl⟩
    · exact .pure trivial

theorem goes_receiveAggregate (callee : String) (result : Ir.TempId) (ty : Ir.Ty)
    (hN : ∀ slot, N (.home result (.slot slot))) :
    Goes E N s (c.receiveAggregate callee result ty) fun _ => True := by
  refine (goes_fitsRegisters ty).bind fun fits s₁ _ _ => ?_
  split
  · exact .unsupported_bind _
  · refine (goes_size ty).bind fun bytes s₂ _ _ => ?_
    refine (goes_freshSlot bytes).bind fun slot s₃ _ _ => ?_
    refine (goes_piecesOf ty).bind fun chunks s₄ _ _ => ?_
    refine (Goes.forM fun part _ s' _ => ?_).bind fun _ s₅ _ _ => goes_setHome (hN slot)
    exact goes_straight hE ⟨rfl, rfl, rfl⟩

theorem goes_receiveScalar (result : Ir.TempId) (ty : Ir.Ty) :
    Goes E N s (c.receiveScalar result ty) fun _ => True := by
  refine (Goes.check (P := fun _ => True) fun _ _ => trivial).bind fun root s₁ _ _ => ?_
  refine (goes_tempReg result _).bind fun dest s₂ _ _ => goes_straight hE ?_
  rw [moveOp]
  split <;> exact ⟨rfl, rfl, rfl⟩

theorem goes_lowerCall (result : Option Ir.TempId) (callee : String) (args : List Ir.Value)
    (ty : Ir.Ty) (returnBuffer : Option Nat) (hN : ∀ id slot, N (.home id (.slot slot))) :
    Goes E N s (c.lowerCall result callee args ty returnBuffer) fun _ => True := by
  refine ⟨fun a s' hrun => ?_⟩
  obtain ⟨_, s₁, hmark, hrun⟩ := run_bind_eq_ok.mp hrun
  cases hmark
  have hmarked : Step E N s { s with function := { s.function with isCaller := true } } := .caller
  refine ⟨.head hmarked (Goes.ok (P := fun _ => True) ?_ a s' hrun).1, trivial⟩
  refine (goes_placeArguments (fun i _ => hE i) callee returnBuffer _ _).bind
    fun placed s₂ hs₂ _ => ?_
  refine (Goes.forM fun p _ s' _ => goes_emitPlaced hE p).bind fun _ s₃ hs₃ _ => ?_
  refine (goes_emit (hE _ (isRoutine_generic rfl _) rfl) fun _ => ?_).bind fun _ s₄ _ _ => ?_
  · exact isCaller_of_evolves (hs₂.trans hs₃) rfl
  · split
    · exact .pure trivial
    · split
      · exact goes_receiveAggregate hE callee _ ty (hN _)
      · exact goes_receiveScalar hE _ ty

end Whole

theorem goes_lowerReturn {c : Scope} (hE : ∀ i, IsRoutine i → E i) (value : Option Ir.Value) :
    Goes E N s (c.lowerReturn value) fun _ => True := by
  have hret : ∀ (s : State) operands, Goes E N s (emit .ret operands) fun _ => True :=
    fun _ _ => goes_emit_of_not_call (hE _ (isRoutine_generic rfl _)) rfl
  have hstraight : ∀ i, IsRoutine i → i.isExit = false → E i := fun i h _ => hE i h
  have hinner : ∀ i, IsInner i → IsRoutine i → i.isExit = false → E i := fun i _ => hstraight i
  cases value with
  | none => exact hret s _
  | some value =>
    dsimp only [Scope.lowerReturn]
    split
    · refine (goes_fitsRegisters _).bind fun fits s₁ _ _ => ?_
      split
      · exact .unsupported_bind _
      · refine (goes_aggregateParts hinner value _).bind fun parts s₂ _ _ => ?_
        exact (Goes.forM fun part _ s' _ => goes_emitInto hstraight _ _).bind fun _ s₃ _ _ =>
          hret s₃ _
    · refine (goes_operand hinner value).bind fun operand s₁ _ _ => ?_
      split
      · refine (Goes.check (P := fun _ => True) fun _ _ => trivial).bind fun root s₂ _ _ => ?_
        exact (goes_straight hstraight ⟨rfl, rfl, rfl⟩).bind fun _ s₃ _ _ => hret s₃ _
      · exact hret s₁ _

/-! ## Instructions -/

def isLocal : Ir.Instruction → Bool
  | .call .. | .ret .. => false
  | _ => true

/-- What an instruction may note: registers only for an aggregate that it loads. -/
def Notes (registerBytes : Nat) (i : Ir.Instruction) : Note → Prop
  | .home id (.registers parts) =>
    ∃ ptr ty, i = .load id ptr ty ∧ NotesLoad registerBytes ty (.registers parts)
  | _ => True

theorem flags_binaryOp (op : Ir.BinaryOp) :
    (binaryOp op).flags.call = false ∧ (binaryOp op).isExit = false := by
  cases op <;> exact ⟨rfl, rfl⟩

theorem flags_unaryOp (ty : Ir.Ty) (op : Ir.UnaryOp) :
    (unaryOp ty op).flags.call = false ∧ (unaryOp ty op).isExit = false := by
  cases op with
  | bitcast =>
    rw [unaryOp]
    split <;> exact ⟨rfl, rfl⟩
  | _ => exact ⟨rfl, rfl⟩

section Instruction

variable {c : Scope} (next : Option String) {i : Ir.Instruction}
  (hN : ∀ note, Notes c.target.pointerBytes i note → N note)
include hN

/-- Instructions other than calls and terminators emit inner code that control does not leave the
block at. -/
theorem goes_lowerInstruction_of_isStraight
    (hE : ∀ j, IsInner j → j.isExit = false → Emits c s.params i j → E j) (hi : isLocal i)
    (hstraight : i.isTerminator = false) :
    Goes E N s (c.lowerInstruction next i) fun _ => True := by
  have hroutine : ∀ j, IsInner j → IsRoutine j → j.isExit = false → E j :=
    fun j hj h hexit => hE j hj hexit (.routine h)
  cases i with
  | binary result op lhs rhs ty =>
    refine (goes_operand hroutine lhs).bind fun lhs' s₁ _ hlhs => ?_
    refine (goes_operand hroutine rhs).bind fun rhs' s₂ _ hrhs => ?_
    refine (goes_tempReg result _).bind fun dest s₃ _ hdest => ?_
    obtain ⟨reg, rfl⟩ := hdest
    obtain ⟨hcall, hexit⟩ := flags_binaryOp op
    have hinner := isInner_generic [.virtualReg reg (c.lowType ty), lhs', rhs']
      ⟨hcall, GenericOp.ret_eq_false hexit⟩ (by simp [hlhs.not_physical, hrhs.not_physical])
    exact goes_emit_of_not_call (hE _ hinner hexit .binary) hcall
  | unary result op operand ty =>
    refine (goes_operand hroutine operand).bind fun source s₁ _ hsource => ?_
    refine (goes_tempReg result _).bind fun dest s₂ _ hdest => ?_
    obtain ⟨reg, rfl⟩ := hdest
    obtain ⟨hcall, hexit⟩ := flags_unaryOp ty op
    have hinner := isInner_generic [.virtualReg reg (c.lowType ty), source]
      ⟨hcall, GenericOp.ret_eq_false hexit⟩ (by simp [hsource.not_physical])
    exact goes_emit_of_not_call (hE _ hinner hexit (.unary hsource.type)) hcall
  | compare result rel lhs rhs => exact goes_lowerCompare hroutine result rel lhs rhs
  | stackAlloc result name ty =>
    refine (goes_size ty).bind fun bytes s₁ _ _ => ?_
    refine (goes_freshSlot bytes).bind fun slot s₂ _ _ => ?_
    have hnote : N (.object result slot) := hN _ trivial
    exact .modify (Step.note hnote)
  | load result ptr ty =>
    refine goes_lowerLoad hroutine result ptr ty fun home hhome => hN _ ?_
    cases home with
    | registers parts => exact ⟨ptr, ty, rfl, hhome⟩
    | slot slot => trivial
  | store value ptr => exact goes_lowerStore hroutine value ptr
  | elementPtr result source index ty =>
    exact goes_lowerElementPtr hroutine result source index fun hsigned reg narrow hinner htype =>
      hE _ hinner rfl (.extend hsigned htype)
  | memCopy dest source bytes =>
    refine (goes_location hroutine dest _).bind fun dest' s₁ _ hdest => ?_
    refine (goes_location hroutine source _).bind fun source' s₂ _ hsource => ?_
    exact goes_emitCopy hroutine hdest hsource _
  | call result callee args ty returnBuffer => cases hi
  | jump _ | branch _ _ _ | ret _ => cases hstraight

theorem goes_lowerInstruction_of_isLocal (hE : ∀ j, IsInner j → Emits c s.params i j → E j)
    (hi : isLocal i) : Goes E N s (c.lowerInstruction next i) fun _ => True := by
  have hroutine : ∀ j, IsInner j → IsRoutine j → E j := fun j hj h => hE j hj (.routine h)
  cases i with
  | jump target => exact goes_emit_inner ⟨rfl, rfl, rfl⟩ (by simp) (hroutine _)
  | branch condition trueTarget falseTarget =>
    exact goes_lowerBranch hroutine condition trueTarget falseTarget next
  | call _ _ _ _ _ | ret _ => cases hi
  | _ => exact goes_lowerInstruction_of_isStraight next hN (fun j hj _ => hE j hj) rfl rfl

theorem goes_lowerInstruction_of_not_terminator
    (hE : ∀ j, j.isExit = false → Emits c s.params i j → E j) (hi : i.isTerminator = false) :
    Goes E N s (c.lowerInstruction next i) fun _ => True := by
  cases i with
  | call result callee args ty returnBuffer =>
    exact goes_lowerCall (fun j h hexit => hE j hexit (.routine h)) result callee args ty _
      fun _ _ => hN _ trivial
  | jump _ | branch _ _ _ | ret _ => cases hi
  | _ => exact goes_lowerInstruction_of_isStraight next hN (fun j _ => hE j) rfl rfl

end Instruction

theorem goes_lowerInstruction {c : Scope} (next : Option String) (i : Ir.Instruction)
    (hE : ∀ j, Emits c s.params i j → E j)
    (hN : ∀ note, Notes c.target.pointerBytes i note → N note) :
    Goes E N s (c.lowerInstruction next i) fun _ => True := by
  cases i with
  | jump _ | branch _ _ _ => exact goes_lowerInstruction_of_isLocal next hN (fun j _ => hE j) rfl
  | ret value => exact goes_lowerReturn (fun j h => hE j (.routine h)) value
  | _ => exact goes_lowerInstruction_of_not_terminator next hN (fun j _ => hE j) rfl

/-- What the steps of lowering and the end of a block keep, the lowering of blocks keeps. -/
theorem lowerBlocks_keeps {c : Scope} {I : State → Prop} {blocks : List Ir.Block} (hs : I s)
    (hevolves : ∀ s s', I s → Evolves (fun _ => True) (fun _ => True) s s' → I s')
    (hclose : ∀ s s' name, I s → (Scope.closeBlock name).run s = .ok ((), s') → I s')
    (h : (c.lowerBlocks blocks).run s = .ok ((), s')) : I s' := by
  induction blocks generalizing s with
  | nil =>
    cases h
    exact hs
  | cons b rest ih =>
    rw [Scope.lowerBlocks] at h
    obtain ⟨_, s₁, hbody, h⟩ := run_bind_eq_ok.mp h
    obtain ⟨_, s₂, hend, h⟩ := run_bind_eq_ok.mp h
    have hgoes : Goes (fun _ => True) (fun _ => True) s
        (b.instructions.forM (c.lowerInstruction (rest.head?.map (·.name)))) fun _ => True :=
      .forM fun i _ s' _ => goes_lowerInstruction _ i (fun _ _ => trivial) fun _ _ => trivial
    exact ih (hclose _ _ _ (hevolves _ _ hs (hgoes.ok _ _ hbody).1) hend) h

theorem exists_code_of_evolves (h : Evolves E N s s') :
    ∃ code, s'.code.toList = s.code.toList ++ code ∧ ∀ i ∈ code, E i := by
  induction h with
  | refl => exact ⟨[], by simp⟩
  | tail _ hstep ih =>
    obtain ⟨code, hcode, hE⟩ := ih
    cases hstep with
    | @emit i hi hcall =>
      refine ⟨code ++ [i], by simp [hcode], fun j hj => ?_⟩
      rcases List.mem_append.mp hj with hj | hj
      · exact hE j hj
      · exact List.mem_singleton.mp hj ▸ hi
    | note h => exact ⟨code, by rwa [State.code_note], hE⟩
    | _ => exact ⟨code, hcode, hE⟩

theorem function_of_evolves (h : Evolves E N s s') :
    s'.function.name = s.function.name ∧ s'.function.params = s.function.params ∧
      s'.function.blocks = s.function.blocks := by
  induction h with
  | refl => exact ⟨rfl, rfl, rfl⟩
  | tail _ hstep ih =>
    cases hstep with
    | note h => rwa [State.function_note]
    | _ => exact ih

/-! ## Parameters -/

def State.withParameter (s : State) (ty : LowType) (isFloat isReturnBuffer : Bool) : State :=
  { s with function := { s.function with
      nextId := s.function.nextId + 1
      params := s.function.params ++ [⟨s.function.nextId, ty, isFloat, isReturnBuffer⟩] } }

/-- One change of the state on the way through the parameters. -/
inductive ParameterStep : State → State → Prop
  | declare {s : State} (ty : LowType) (isFloat isReturnBuffer : Bool) :
    ParameterStep s (s.withParameter ty isFloat isReturnBuffer)
  | note {s : State} {p : Parameter} (name : String) (ty : LowType) (hp : p ∈ s.function.params) :
    ParameterStep s { s with params := (name, p.id, ty) :: s.params }
  | store {s : State} {p : Parameter} (place source : Operand)
    (hplace : place.isMemory || place.isStack) (hp : p ∈ s.function.params)
    (hsource : source.kind = .parameter p.id) :
    ParameterStep s (s.append [.generic .store [place, source]])
  | slot {s : State} (frame : Frame) :
    ParameterStep s { s with function := { s.function with
      nextId := s.function.nextId + 1, frame := frame } }
  | home {s : State} (name : String) (slot : Slot) :
    ParameterStep s { s with aggregates := (.param name, .slot slot) :: s.aggregates }

theorem isMemory_piece {location : Operand} (h : location.isMemory || location.isStack) (p : Piece) :
    (p.of location).isMemory || (p.of location).isStack := by
  obtain ⟨kind, ty, regClass⟩ := location
  cases kind with
  | memory base offset => rfl
  | stack slot offset => rfl
  | _ => cases h

theorem parameterSteps_pieces {ps : List Piece} {base : Operand}
    (hbase : base.isMemory || base.isStack)
    (h : (ps.forM fun piece => do
      let id ← freshParameter piece.ty false false
      emit .store [piece.of base, .parameter id piece.ty]).run s = .ok ((), s')) :
    Relation.ReflTransGen ParameterStep s s' := by
  induction ps generalizing s with
  | nil =>
    cases h
    exact .refl
  | cons p ps ih =>
    rw [List.forM] at h
    obtain ⟨_, s₁, hfirst, h⟩ := run_bind_eq_ok.mp h
    obtain ⟨id, s₂, hfresh, hfirst⟩ := run_bind_eq_ok.mp hfirst
    obtain ⟨-, rfl, rfl⟩ := run_freshParameter_eq_ok.mp hfresh
    rw [run_emit] at hfirst
    cases hfirst
    refine .head (.declare p.ty false false) (.head (.store _ _ (isMemory_piece hbase p)
      (List.mem_append_right _ List.mem_cons_self) rfl) (ih h))

/-- **A lowered parameter** is known by one machine parameter.  An aggregate has one for each of its
pieces instead, which are stored into a frame object. -/
theorem run_lowerParameter_cases {c : Scope} {p : Ir.Parameter}
    (h : (c.lowerParameter p).run s = .ok ((), s')) :
    (∃ ty isFloat, (p.isReturnBuffer ∧ ty = c.target.pointerType ∨
        p.ty.isAggregate = false ∧ ty = c.lowType p.ty) ∧
      s' = { s.withParameter ty isFloat p.isReturnBuffer with
        params := (p.name, s.function.nextId, ty) :: s.params }) ∨
      ∃ bytes s₁, p.isReturnBuffer = false ∧ p.ty.isAggregate ∧
        p.ty.size c.target.pointerBytes = .ok bytes ∧ bytes * 8 ≤ c.target.convention.maxAggregateBits ∧
        ((pieces c.target.pointerBytes bytes).forM fun piece => do
          let id ← freshParameter piece.ty false false
          emit .store [piece.of (.stack ⟨s.function.nextId⟩ 0 c.target.pointerType),
            .parameter id piece.ty]).run { s with function := { s.function with
              nextId := s.function.nextId + 1
              frame := s.function.frame.insert ⟨s.function.nextId⟩ (bytes % Word.modulus 32) } } =
          .ok ((), s₁) ∧
        s' = { s₁ with
          aggregates := (.param p.name, .slot ⟨s.function.nextId⟩) :: s₁.aggregates } := by
  rw [Scope.lowerParameter] at h
  split at h
  · next hbuffer =>
    obtain ⟨id, s₁, hfresh, h⟩ := run_bind_eq_ok.mp h
    obtain ⟨-, rfl, rfl⟩ := run_freshParameter_eq_ok.mp hfresh
    cases h
    exact .inl ⟨_, false, .inl ⟨hbuffer, rfl⟩, by rw [hbuffer]; rfl⟩
  · next hbuffer =>
    split at h
    · next haggregate =>
      obtain ⟨fits, s₁, hfits, h⟩ := run_bind_eq_ok.mp h
      obtain ⟨bytes, hsize, -, rfl, rfl⟩ := run_fitsRegisters_eq_ok.mp hfits
      by_cases hle : bytes * 8 ≤ c.target.convention.maxAggregateBits
      · rw [decide_eq_true hle] at h
        obtain ⟨bytes', s₂, hsize', hrun⟩ := run_bind_eq_ok.mp h
        obtain ⟨slot, s₃, hslot, hrun⟩ := run_bind_eq_ok.mp hrun
        obtain ⟨ps, s₄, hpieces, hrun⟩ := run_bind_eq_ok.mp hrun
        obtain ⟨_, s₅, hstores, hrun⟩ := run_bind_eq_ok.mp hrun
        cases hrun
        obtain ⟨hbytes, rfl⟩ := run_size_eq_ok.mp hsize'
        cases hsize.symm.trans hbytes
        obtain ⟨-, rfl, rfl⟩ := run_freshSlot_eq_ok.mp hslot
        obtain ⟨_, hbytes, rfl, rfl⟩ := run_piecesOf_eq_ok.mp hpieces
        cases hsize.symm.trans hbytes
        exact .inr ⟨bytes, s₅, Bool.eq_false_iff.mpr hbuffer, haggregate, hsize, hle, hstores, rfl⟩
      · rw [decide_eq_false hle] at h
        cases h
    · next hscalar =>
      obtain ⟨id, s₁, hfresh, h⟩ := run_bind_eq_ok.mp h
      obtain ⟨-, rfl, rfl⟩ := run_freshParameter_eq_ok.mp hfresh
      cases h
      refine .inl ⟨_, p.ty.isFloat, .inr ⟨by simpa using hscalar, rfl⟩, ?_⟩
      rw [Bool.eq_false_iff.mpr hbuffer]
      rfl

theorem parameterSteps_lowerParameter {c : Scope} {p : Ir.Parameter}
    (h : (c.lowerParameter p).run s = .ok ((), s')) :
    Relation.ReflTransGen ParameterStep s s' := by
  obtain ⟨ty, isFloat, -, rfl⟩ | ⟨bytes, s₁, -, -, -, -, hstores, rfl⟩ :=
    run_lowerParameter_cases h
  · exact .tail (.single (.declare ty isFloat p.isReturnBuffer))
      (.note (p := ⟨_, ty, isFloat, p.isReturnBuffer⟩) p.name ty (by simp [State.withParameter]))
  · exact .head (.slot _) (.tail (parameterSteps_pieces rfl hstores) (.home p.name _))

theorem parameterSteps {c : Scope} {ps : List Ir.Parameter}
    (h : (ps.forM c.lowerParameter).run s = .ok ((), s')) :
    Relation.ReflTransGen ParameterStep s s' := by
  induction ps generalizing s with
  | nil =>
    cases h
    exact .refl
  | cons p ps ih =>
    rw [List.forM] at h
    obtain ⟨_, s₁, hfirst, h⟩ := run_bind_eq_ok.mp h
    exact (parameterSteps_lowerParameter hfirst).trans (ih h)

/-! ## Functions -/

/-- The state in which the lowering of a function starts. -/
def State.start (f : Ir.Function) : State := { function := { name := f.name } }

/-- Lowering stands in a block `b` of the function, before the instructions `todo`, with the blocks
`rest` behind. -/
inductive Reaches (c : Scope) (f : Ir.Function) :
    List Ir.Instruction → Ir.Block → List Ir.Block → State → Prop
  | enter {b : Ir.Block} {rest : List Ir.Block} {s : State} (hblocks : f.blocks = b :: rest)
      (hparams : (f.parameters.forM c.lowerParameter).run (.start f) = .ok ((), s)) :
    Reaches c f b.instructions b rest s
  | step {i : Ir.Instruction} {todo : List Ir.Instruction} {b : Ir.Block} {rest : List Ir.Block}
      {s s' : State} (h : Reaches c f (i :: todo) b rest s)
      (hrun : (c.lowerInstruction (rest.head?.map (·.name)) i).run s = .ok ((), s')) :
    Reaches c f todo b rest s'
  | next {b b' : Ir.Block} {rest : List Ir.Block} {s s' : State}
      (h : Reaches c f [] b (b' :: rest) s)
      (hrun : (Scope.closeBlock b.name).run s = .ok ((), s')) :
    Reaches c f b'.instructions b' rest s'

variable {c : Scope} {f : Ir.Function} {todo : List Ir.Instruction} {b : Ir.Block}
  {rest : List Ir.Block}

theorem Reaches.isSuffix (h : Reaches c f todo b rest s) :
    b :: rest <:+ f.blocks ∧ todo <:+ b.instructions := by
  induction h with
  | enter hblocks => exact ⟨hblocks ▸ List.suffix_rfl, List.suffix_rfl⟩
  | step _ _ ih => exact ⟨ih.1, (List.suffix_cons _ _).trans ih.2⟩
  | next _ _ ih => exact ⟨(List.suffix_cons _ _).trans ih.1, List.suffix_rfl⟩

/-- What some instruction of the function may note. -/
def NotesIn (registerBytes : Nat) (f : Ir.Function) (note : Note) : Prop :=
  ∃ b ∈ f.blocks, ∃ i ∈ b.instructions, Notes registerBytes i note

/-- **What holds behind the parameters and is kept by every step holds in every state that lowering
reaches.** -/
theorem Reaches.keeps {I : State → Prop} (h : Reaches c f todo b rest s)
    (hstart : ∀ s, (f.parameters.forM c.lowerParameter).run (.start f) = .ok ((), s) → I s)
    (hstep : ∀ s s', I s →
      Step (fun _ => True) (NotesIn c.target.pointerBytes f) s s' → I s')
    (hclose : ∀ s s' name, I s → (Scope.closeBlock name).run s = .ok ((), s') → I s') : I s := by
  induction h with
  | enter _ hparams => exact hstart _ hparams
  | @step i todo b rest s s' h hrun ih =>
    obtain ⟨hblocks, htodo⟩ := h.isSuffix
    have hgoes := goes_lowerInstruction (s := s) (c := c) (E := fun _ => True)
      (N := NotesIn c.target.pointerBytes f) (rest.head?.map (·.name)) i (fun _ _ => trivial)
      fun note hnote => ⟨b, hblocks.subset (by simp), i, htodo.subset (by simp), hnote⟩
    obtain ⟨hevolves, -⟩ := hgoes.ok _ _ hrun
    clear hrun
    induction hevolves with
    | refl => exact ih
    | tail _ hlast ih' => exact hstep _ _ ih' hlast
  | next _ hrun ih => exact hclose _ _ _ ih hrun

end Lowering

end Retarget
