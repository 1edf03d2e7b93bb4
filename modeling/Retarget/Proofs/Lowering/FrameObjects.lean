import Retarget.Lowering.Function
import Retarget.Proofs.Lowering.Runs
import Retarget.Proofs.Lowering.Temporaries

/-!
# Frame objects

Lowering creates a frame object for every local, for aggregates that are parameters or results of
calls, and for aggregates that are loaded and too large for registers (`Ir.Function.locals`).  Its
other steps leave the frame alone (`Allots`).  So the frame of a lowered function has one object for
each of these types, in their order, and the object keeps 32 bits of the size of the type
(`sizes_lowerFunction`).
-/

namespace Retarget

namespace Ir

/-- The types of the frame objects for a parameter: an aggregate is kept in one. -/
def Parameter.locals (p : Parameter) : List Ty :=
  if !p.isReturnBuffer && p.ty.isAggregate then [p.ty] else []

/-- The types of the frame objects for an instruction. -/
def Instruction.locals (t : Target) : Instruction → List Ty
  | stackAlloc _ _ ty => [ty]
  | load result ptr ty =>
    if ty.isAggregate && !(load result ptr ty).loadsPieces t then [ty] else []
  | call result _ _ ty _ => if result.isSome && ty.isAggregate then [ty] else []
  | _ => []

/-- The types of the frame objects for a function, in the order of their creation. -/
def Function.locals (t : Target) (f : Function) : List Ty :=
  f.parameters.flatMap (·.locals) ++ f.instructions.flatMap (·.locals t)

end Ir

namespace Lowering

open Machine

variable {c : Scope} {α β : Type} {n : Nat} {tys : List Ir.Ty}

/-- The size of an object for `bytes` bytes, of which it keeps 32 bits. -/
def objectSize (bytes : Nat) : Nat := max (bytes % Word.modulus 32) Frame.minObjectSize

def State.objectSizes (s : State) : List Nat := s.function.frame.objects.map (·.size)

/-- The step creates frame objects for the types `tys`, where registers have `n` bytes. -/
structure Allots (n : Nat) (x : Lower α) (tys : List Ir.Ty) : Prop where
  ok : ∀ s a s', x.run s = .ok (a, s') → ∃ sizes, tys.mapM (·.size n) = .ok sizes ∧
    s'.objectSizes = s.objectSizes ++ sizes.map objectSize

/-! ## Composition -/

namespace Allots

theorem of_frame {x : Lower α}
    (h : ∀ s a s', x.run s = .ok (a, s') → s'.function.frame = s.function.frame) :
    Allots n x [] :=
  ⟨fun s a s' hrun => ⟨[], rfl, by simp [State.objectSizes, h s a s' hrun]⟩⟩

theorem pure (a : α) : Allots n (Pure.pure a) [] :=
  of_frame fun s a s' hrun => by cases hrun; rfl

theorem bind_of_run {x : Lower α} {g : α → Lower β} {tys' : List Ir.Ty} (hx : Allots n x tys)
    (hg : ∀ a, (∃ s s', x.run s = .ok (a, s')) → Allots n (g a) tys') :
    Allots n (x >>= g) (tys ++ tys') := by
  refine ⟨fun s b s' h => ?_⟩
  obtain ⟨a, s₁, hrun, h⟩ := run_bind_eq_ok.mp h
  obtain ⟨sizes, hsizes, hs₁⟩ := hx.ok s a s₁ hrun
  obtain ⟨sizes', hsizes', hs'⟩ := (hg a ⟨s, s₁, hrun⟩).ok s₁ b s' h
  refine ⟨sizes ++ sizes', ?_, by simp [hs', hs₁]⟩
  rw [List.mapM_append, hsizes, ok_bind, hsizes', ok_bind]
  rfl

theorem bind {x : Lower α} {g : α → Lower β} (hx : Allots n x []) (hg : ∀ a, Allots n (g a) tys) :
    Allots n (x >>= g) tys :=
  hx.bind_of_run fun a _ => hg a

theorem get_bind {g : State → Lower β} (h : ∀ s, Allots n (g s) tys) : Allots n (get >>= g) tys :=
  ⟨fun s => (h s).ok s⟩

theorem check (x : Result α) : Allots n (check x) [] :=
  of_frame fun s a s' hrun => by rw [(run_check_eq_ok.mp hrun).2]

theorem unsupported (detail : String) : Allots n (unsupported detail : Lower α) tys := ⟨nofun⟩

theorem unsupported_bind {g : α → Lower β} (detail : String) :
    Allots n (Lowering.unsupported detail >>= g) tys :=
  ⟨nofun⟩

theorem modify {g : State → State} (h : ∀ s, (g s).function.frame = s.function.frame) :
    Allots n (modify g) [] :=
  of_frame fun s a s' hrun => by cases hrun; exact h s

theorem forM {l : List α} {g : α → Lower Unit} {locals : α → List Ir.Ty}
    (hg : ∀ a, Allots n (g a) (locals a)) : Allots n (l.forM g) (l.flatMap locals) := by
  induction l with
  | nil => exact pure ()
  | cons a l ih => exact (hg a).bind_of_run fun _ _ => ih

theorem forM_nil {l : List α} {g : α → Lower Unit} (hg : ∀ a, Allots n (g a) []) :
    Allots n (l.forM g) [] := by
  have hall : Allots n (l.forM g) (l.flatMap fun _ => []) := forM hg
  rwa [List.flatMap_eq_nil_iff.mpr fun _ _ => rfl] at hall

theorem mapM_nil {l : List α} {g : α → Lower β} (hg : ∀ a, Allots n (g a) []) :
    Allots n (l.mapM g) [] := by
  induction l with
  | nil => exact pure []
  | cons a l ih =>
    rw [List.mapM_cons]
    exact (hg a).bind fun _ => ih.bind fun _ => pure _

end Allots

/-! ## Single steps -/

theorem allots_emit (op : GenericOp) (operands : List Operand) : Allots n (emit op operands) [] :=
  .modify fun _ => rfl

theorem allots_freshId : Allots n freshId [] :=
  .of_frame fun s id s' hrun => by obtain ⟨-, -, rfl⟩ := run_freshId_eq_ok.mp hrun; rfl

theorem allots_freshReg (ty : LowType) : Allots n (freshReg ty) [] :=
  allots_freshId.bind fun _ => .pure _

theorem allots_freshParameter (ty : LowType) (isFloat isReturnBuffer : Bool) :
    Allots n (freshParameter ty isFloat isReturnBuffer) [] :=
  .of_frame fun s id s' hrun => by obtain ⟨-, -, rfl⟩ := run_freshParameter_eq_ok.mp hrun; rfl

theorem allots_tempReg (id : Ir.TempId) (ty : LowType) : Allots n (tempReg id ty) [] := by
  refine .get_bind fun s => ?_
  split
  · exact .pure _
  · refine allots_freshId.bind fun reg => Allots.bind ?_ fun _ => .pure _
    exact .modify fun _ => rfl

theorem allots_setHome (name : AggregateName) (home : Home) : Allots n (setHome name home) [] :=
  .modify fun _ => rfl

theorem allots_size (ty : Ir.Ty) : Allots n (c.size ty) [] := .check _

theorem allots_fitsRegisters (ty : Ir.Ty) : Allots n (c.fitsRegisters ty) [] :=
  (allots_size ty).bind fun _ => (Allots.check _).bind fun _ => .pure _

theorem allots_piecesOf (ty : Ir.Ty) : Allots n (c.piecesOf ty) [] :=
  (allots_size ty).bind fun _ => .pure _

theorem allots_freshSlot {ty : Ir.Ty} {bytes : Nat} (h : ty.size n = .ok bytes) :
    Allots n (freshSlot bytes) [ty] := by
  refine ⟨fun s slot s' hrun => ⟨[bytes], ?_, ?_⟩⟩
  · rw [List.mapM_cons, h]
    rfl
  · obtain ⟨-, -, rfl⟩ := run_freshSlot_eq_ok.mp hrun
    simp [State.objectSizes, Frame.insert, objectSize]

theorem allots_slotOf {ty : Ir.Ty} {g : Nat → Slot → Lower β}
    (hg : ∀ bytes slot, Allots c.target.pointerBytes (g bytes slot) []) :
    Allots c.target.pointerBytes (do
      let bytes ← c.size ty
      let slot ← freshSlot bytes
      g bytes slot) [ty] := by
  have hslot : ∀ bytes, (∃ s s', (c.size ty).run s = .ok (bytes, s')) →
      Allots c.target.pointerBytes (do let slot ← freshSlot bytes; g bytes slot) [ty] := by
    rintro bytes ⟨s, s', hrun⟩
    exact (allots_freshSlot (run_size_eq_ok.mp hrun).1).bind_of_run fun slot _ => hg bytes slot
  exact (allots_size ty).bind_of_run hslot

/-! ## Values -/

theorem allots_emitAddress (dest : Operand) (value : Ir.Value) :
    Allots n (c.emitAddress dest value) [] := by
  refine .get_bind fun s => ?_
  split
  · exact allots_emit _ _
  · exact allots_emit _ _
  · exact .pure _

theorem allots_addressOf (value : Ir.Value) : Allots n (c.addressOf value) [] :=
  (allots_freshReg _).bind fun _ => (allots_emitAddress _ _).bind fun _ => .pure _

theorem allots_operand (value : Ir.Value) : Allots n (c.operand value) [] := by
  unfold Scope.operand
  split
  · exact .pure _
  · exact .unsupported _
  · exact allots_addressOf _
  · refine .get_bind fun s => ?_
    split
    · exact allots_addressOf _
    · exact allots_tempReg _ _
  · refine .get_bind fun s => ?_
    split
    · exact .pure _
    · refine .get_bind fun s => ?_
      split
      · exact allots_addressOf _
      · exact .unsupported _

theorem allots_location (ptr : Ir.Value) (ty : LowType) : Allots n (c.location ptr ty) [] := by
  refine .get_bind fun s => ?_
  split
  · exact .pure _
  · split
    · exact .unsupported _
    · refine (allots_operand ptr).bind fun base => ?_
      split
      · exact .pure _
      · exact .unsupported _

/-! ## Memory -/

theorem allots_emitCopy (dest source : Operand) (bytes : Nat) :
    Allots n (c.emitCopy dest source bytes) [] :=
  .forM_nil fun _ => (allots_freshReg _).bind fun _ =>
    (allots_emit _ _).bind fun _ => allots_emit _ _

theorem allots_emitPieceLoad (location : Operand) (p : Piece) :
    Allots n (Scope.emitPieceLoad location p) [] :=
  allots_freshId.bind fun _ => (allots_emit _ _).bind fun _ => .pure _

/-- A load creates an object for an aggregate that does not fit registers. -/
theorem allots_lowerLoad (result : Ir.TempId) (ptr : Ir.Value) (ty : Ir.Ty) :
    Allots c.target.pointerBytes (c.lowerLoad result ptr ty)
      ((Ir.Instruction.load result ptr ty).locals c.target) := by
  rw [Scope.lowerLoad, Ir.Instruction.locals]
  by_cases haggregate : ty.isAggregate
  · rw [if_pos haggregate]
    refine (allots_location _ _).bind fun location => ?_
    refine (allots_fitsRegisters ty).bind_of_run fun fits hrun => ?_
    obtain ⟨s, s', hrun⟩ := hrun
    obtain ⟨bytes, hsize, -, -, rfl⟩ := run_fitsRegisters_eq_ok.mp hrun
    have hpieces : (Ir.Instruction.load result ptr ty).loadsPieces c.target =
        decide (bytes * 8 ≤ c.target.convention.maxAggregateBits) := by
      simp [Ir.Instruction.loadsPieces, haggregate, hsize, Except.toOption]
    rw [hpieces]
    cases decide (bytes * 8 ≤ c.target.convention.maxAggregateBits) with
    | true =>
      rw [haggregate]
      refine (allots_piecesOf ty).bind fun _ => ?_
      exact (Allots.mapM_nil (allots_emitPieceLoad location)).bind fun _ => allots_setHome _ _
    | false =>
      rw [haggregate]
      exact allots_slotOf fun _ _ => (allots_emitCopy _ _ _).bind fun _ => allots_setHome _ _
  · rw [if_neg haggregate, if_neg (by simp [haggregate])]
    refine (allots_location _ _).bind fun _ => ?_
    exact (allots_tempReg _ _).bind fun _ => allots_emit _ _

theorem allots_lowerStore (value ptr : Ir.Value) : Allots n (c.lowerStore value ptr) [] := by
  dsimp only [Scope.lowerStore]
  split
  · refine (allots_location _ _).bind fun _ => .get_bind fun s => ?_
    split
    · exact .forM_nil fun _ => allots_emit _ _
    · refine (allots_location _ _).bind fun _ => (allots_size _).bind fun _ => ?_
      exact allots_emitCopy _ _ _
  · exact (allots_location _ _).bind fun _ => (allots_operand _).bind fun _ => allots_emit _ _

theorem allots_emitOffset (dest base : Operand) (offset : Int) :
    Allots n (c.emitOffset dest base offset) [] := by
  unfold Scope.emitOffset
  split
  · exact allots_emit _ _
  · exact allots_emit _ _

theorem allots_wideIndex (index : Ir.Value) : Allots n (c.wideIndex index) [] := by
  refine (allots_operand index).bind fun narrow => ?_
  split
  · exact (allots_freshReg _).bind fun _ => (allots_emit _ _).bind fun _ => .pure _
  · exact .pure _

theorem allots_scaledIndex (index : Ir.Value) (element : Int) :
    Allots n (c.scaledIndex index element) [] := by
  refine (allots_wideIndex index).bind fun wide => ?_
  split
  · exact .pure _
  · exact (allots_freshReg _).bind fun _ => (allots_emit _ _).bind fun _ => .pure _

theorem allots_lowerElementPtr (result : Ir.TempId) (source index : Ir.Value) :
    Allots n (c.lowerElementPtr result source index) [] := by
  dsimp only [Scope.lowerElementPtr]
  refine (allots_operand source).bind fun base => (allots_tempReg result _).bind fun dest => ?_
  split
  · split
    · refine (Allots.check _).bind fun offset => ?_
      split
      · exact allots_emitOffset _ _ _
      · exact .unsupported _
    · exact .unsupported _
  · refine (allots_size _).bind fun bytes => ?_
    split
    · exact (Allots.check _).bind fun offset => allots_emitOffset _ _ _
    · exact (allots_scaledIndex index _).bind fun _ => allots_emit _ _

/-! ## Calls and returns -/

theorem allots_emitInto (dest source : Operand) : Allots n (emitInto dest source) [] :=
  allots_emit _ _

theorem allots_stage (source : Operand) (ty : LowType) : Allots n (stage source ty) [] := by
  refine .get_bind fun s => ?_
  split
  · exact (allots_freshReg _).bind fun _ => (allots_emitInto _ _).bind fun _ => .pure _
  · exact .pure _

theorem allots_aggregateParts (value : Ir.Value) (registers : List RegId) :
    Allots n (c.aggregateParts value registers) [] := by
  dsimp only [Scope.aggregateParts]
  refine (allots_piecesOf _).bind fun chunks => ?_
  split
  · exact .unsupported_bind _
  · refine .get_bind fun s => ?_
    split
    · exact .pure _
    · exact (allots_location _ _).bind fun _ => .pure _

theorem allots_placeReturnBuffer (arg : Ir.Value) : Allots n (c.placeReturnBuffer arg) [] := by
  refine .get_bind fun s => ?_
  split
  · exact .pure _
  · exact (allots_operand _).bind fun _ => (allots_stage _ _).bind fun _ => .pure _

theorem allots_placeAggregate (callee : String) (index : Nat) (arg : Ir.Value) (cursor : Cursor) :
    Allots n (c.placeAggregate callee index arg cursor) [] := by
  refine (allots_fitsRegisters _).bind fun fits => ?_
  split
  · exact .unsupported_bind _
  · refine (allots_aggregateParts _ _).bind fun parts => (Allots.mapM_nil fun part => ?_).bind
      fun _ => .pure _
    exact (allots_stage _ _).bind fun _ => .pure _

theorem allots_placeScalar (callee : String) (arg : Ir.Value) (cursor : Cursor) :
    Allots n (c.placeScalar callee arg cursor) [] := by
  dsimp only [Scope.placeScalar]
  refine (Allots.check _).bind fun root => .get_bind fun s => ?_
  split
  · exact .pure _
  · exact (allots_operand _).bind fun _ => (allots_stage _ _).bind fun _ => .pure _

theorem allots_placeArguments (callee : String) (returnBuffer : Option Nat)
    (args : List (Ir.Value × Nat)) (cursor : Cursor) :
    Allots n (c.placeArguments callee returnBuffer args cursor) [] := by
  induction args generalizing cursor with
  | nil => exact .pure _
  | cons arg args ih =>
    unfold Scope.placeArguments
    dsimp only
    split
    · exact (allots_placeReturnBuffer _).bind fun _ => (ih _).bind fun _ => .pure _
    · split
      · exact (allots_placeAggregate _ _ _ _).bind fun _ => (ih _).bind fun _ => .pure _
      · exact (allots_placeScalar _ _ _).bind fun _ => (ih _).bind fun _ => .pure _

theorem allots_emitPlaced (p : Placed) : Allots n (c.emitPlaced p) [] := by
  unfold Scope.emitPlaced
  split
  · exact allots_emitInto _ _
  · exact allots_emitAddress _ _

theorem allots_receiveAggregate (callee : String) (result : Ir.TempId) (ty : Ir.Ty) :
    Allots c.target.pointerBytes (c.receiveAggregate callee result ty) [ty] := by
  refine (allots_fitsRegisters ty).bind fun fits => ?_
  split
  · exact .unsupported_bind _
  · refine allots_slotOf fun _ _ => (allots_piecesOf _).bind fun _ => ?_
    exact (Allots.forM_nil fun _ => allots_emit _ _).bind fun _ => allots_setHome _ _

theorem allots_receiveScalar (result : Ir.TempId) (ty : Ir.Ty) :
    Allots n (c.receiveScalar result ty) [] :=
  (Allots.check _).bind fun _ => (allots_tempReg _ _).bind fun _ => allots_emit _ _

theorem allots_lowerCall (result : Option Ir.TempId) (callee : String) (args : List Ir.Value)
    (ty : Ir.Ty) (returnBuffer : Option Nat) :
    Allots c.target.pointerBytes (c.lowerCall result callee args ty returnBuffer)
      (if result.isSome && ty.isAggregate then [ty] else []) := by
  refine Allots.bind (.modify fun _ => rfl) fun _ => ?_
  refine (allots_placeArguments _ _ _ _).bind fun placed => ?_
  refine (Allots.forM_nil allots_emitPlaced).bind fun _ => (allots_emit _ _).bind fun _ => ?_
  cases result with
  | none => exact .pure _
  | some result =>
    cases haggregate : ty.isAggregate with
    | true => exact allots_receiveAggregate _ _ _
    | false => exact allots_receiveScalar _ _

theorem allots_lowerReturn (value : Option Ir.Value) : Allots n (c.lowerReturn value) [] := by
  unfold Scope.lowerReturn
  split
  · exact allots_emit _ _
  · dsimp only
    split
    · refine (allots_fitsRegisters _).bind fun fits => ?_
      split
      · exact .unsupported_bind _
      · refine (allots_aggregateParts _ _).bind fun parts => ?_
        exact (Allots.forM_nil fun _ => allots_emitInto _ _).bind fun _ => allots_emit _ _
    · refine (allots_operand _).bind fun operand => ?_
      split
      · exact (Allots.check _).bind fun _ => (allots_emit _ _).bind fun _ => allots_emit _ _
      · exact allots_emit _ _

theorem allots_lowerBranch (condition : Ir.Value) (trueTarget : String)
    (falseTarget next : Option String) :
    Allots n (c.lowerBranch condition trueTarget falseTarget next) [] := by
  unfold Scope.lowerBranch
  split
  · unfold Scope.lowerJumpUnless
    split
    · exact allots_emit _ _
    · exact .pure _
  · exact (allots_operand _).bind fun _ => allots_emit _ _

/-! ## Functions -/

theorem allots_lowerInstruction (next : Option String) (i : Ir.Instruction) :
    Allots c.target.pointerBytes (c.lowerInstruction next i) (i.locals c.target) := by
  cases i with
  | binary result op lhs rhs ty =>
    exact (allots_operand _).bind fun _ => (allots_operand _).bind fun _ =>
      (allots_tempReg _ _).bind fun _ => allots_emit _ _
  | unary result op operand ty =>
    exact (allots_operand _).bind fun _ => (allots_tempReg _ _).bind fun _ => allots_emit _ _
  | compare result rel lhs rhs =>
    exact (allots_operand _).bind fun _ => (allots_operand _).bind fun _ =>
      (allots_tempReg _ _).bind fun _ => .modify fun _ => rfl
  | stackAlloc result name ty => exact allots_slotOf fun _ _ => .modify fun _ => rfl
  | load result ptr ty => exact allots_lowerLoad result ptr ty
  | store value ptr => exact allots_lowerStore value ptr
  | elementPtr result source index ty => exact allots_lowerElementPtr result source index
  | memCopy dest source bytes =>
    exact (allots_location _ _).bind fun _ => (allots_location _ _).bind fun _ =>
      allots_emitCopy _ _ _
  | call result callee args ty returnBuffer => exact allots_lowerCall result callee args ty _
  | jump target => exact allots_emit _ _
  | branch condition trueTarget falseTarget =>
    exact allots_lowerBranch condition trueTarget falseTarget next
  | ret value => exact allots_lowerReturn value

theorem allots_lowerParameter (p : Ir.Parameter) :
    Allots c.target.pointerBytes (c.lowerParameter p) p.locals := by
  have hscalar : ∀ ty isFloat isReturnBuffer, Allots c.target.pointerBytes (do
      let id ← freshParameter ty isFloat isReturnBuffer
      Scope.setParameter p.name id ty) [] := fun _ _ _ =>
    (allots_freshParameter _ _ _).bind fun _ => .modify fun _ => rfl
  unfold Scope.lowerParameter Ir.Parameter.locals
  cases p.isReturnBuffer with
  | true => exact hscalar _ _ _
  | false =>
    cases haggregate : p.ty.isAggregate with
    | false => exact hscalar _ _ _
    | true =>
      refine (allots_fitsRegisters _).bind fun fits => ?_
      split
      · exact .unsupported_bind _
      · refine allots_slotOf fun _ _ => (allots_piecesOf _).bind fun _ => ?_
        refine (Allots.forM_nil fun _ => ?_).bind fun _ => allots_setHome _ _
        exact (allots_freshParameter _ _ _).bind fun _ => allots_emit _ _

theorem allots_lowerBlocks (bs : List Ir.Block) :
    Allots c.target.pointerBytes (c.lowerBlocks bs)
      ((bs.flatMap (·.instructions)).flatMap (·.locals c.target)) := by
  induction bs with
  | nil => exact .pure ()
  | cons b bs ih =>
    rw [List.flatMap_cons, List.flatMap_append]
    refine (Allots.forM (allots_lowerInstruction _)).bind_of_run fun _ _ => ?_
    exact Allots.bind (.modify fun _ => rfl) fun _ => ih

/-- **The frame of a lowered function has one object for each local**, which keeps 32 bits of its
size. -/
theorem sizes_lowerFunction {t : Target} {f : Ir.Function} {g : Function}
    (h : lowerFunction t f = .ok g) : ∃ sizes,
      (f.locals t).mapM (·.size t.pointerBytes) = .ok sizes ∧
      g.frame.objects.map (·.size) = sizes.map objectSize := by
  obtain ⟨⟨_, s'⟩, hrun, h⟩ := bind_eq_ok.mp h
  cases h
  have hparameters : Allots t.pointerBytes (f.parameters.forM (Scope.lowerParameter ⟨t, f.name⟩))
      (f.parameters.flatMap (·.locals)) :=
    .forM (allots_lowerParameter (c := ⟨t, f.name⟩))
  have hbody := hparameters.bind_of_run fun _ _ => allots_lowerBlocks (c := ⟨t, f.name⟩) f.blocks
  exact hbody.ok _ _ _ hrun

end Lowering

end Retarget
