import Retarget.Lowering.Module
import Retarget.Proofs.Lowering.Runs
import Retarget.Proofs.Shape.Basic

/-!
# Lowered code is shaped

Lowering is followed step by step: from a sound state, a step leads to a sound state with the frame
slots it had and maybe more (`Runs`).  So a lowered function is shaped over its own frame
(`yields_lowerFunction`).
-/

namespace Retarget.Lowering

open Machine (Slot LowType Operand GenericOp Instruction)

variable {t : Target} {c : Scope} {s : State} {α β : Type}

def State.slots (s : State) : List Slot := s.function.slots

/-- All code so far is shaped, and every slot that is remembered is in the frame. -/
structure Sound (t : Target) (s : State) : Prop where
  code : ∀ i ∈ s.code.toList, i.Shaped t s.slots
  blocks : s.function.All (·.Shaped t s.slots)
  objects : ∀ e ∈ s.objects, e.2 ∈ s.slots
  homes : ∀ name slot, (name, Home.slot slot) ∈ s.aggregates → slot ∈ s.slots

/-- From `s`, the step leads to a sound state over at least the same slots and answers something
that `P` holds of, or fails for a reason outside the code generator. -/
structure Runs (t : Target) (s : State) (x : Lower α) (P : List Slot → α → Prop) : Prop where
  yields : Yields (fun r => Sound t r.2 ∧ s.slots ⊆ r.2.slots ∧ P r.2.slots r.1) (x.run s)

variable {P : List Slot → α → Prop} {Q : List Slot → β → Prop}

/-! ## Steps -/

namespace Runs

theorem pure {a : α} (hs : Sound t s) (h : P s.slots a) : Runs t s (Pure.pure a) P :=
  ⟨.ok ⟨hs, fun _ h => h, h⟩⟩

theorem bind {x : Lower α} {g : α → Lower β} (hx : Runs t s x P)
    (hg : ∀ a s', Sound t s' → s.slots ⊆ s'.slots → P s'.slots a → Runs t s' (g a) Q) :
    Runs t s (x >>= g) Q := by
  refine ⟨hx.yields.bind fun r hr => ?_⟩
  refine (hg r.1 r.2 hr.1 hr.2.1 hr.2.2).yields.mono fun r' hr' => ?_
  exact ⟨hr'.1, fun slot hslot => hr'.2.1 (hr.2.1 hslot), hr'.2.2⟩

theorem get_bind {g : State → Lower β} (h : Runs t s (g s) Q) : Runs t s (get >>= g) Q :=
  ⟨h.yields⟩

theorem check {x : Result α} {P : α → Prop} (hs : Sound t s) (h : Yields P x) :
    Runs t s (check x) fun _ a => P a := by
  cases h with
  | ok h => exact ⟨.ok ⟨hs, fun _ h => h, h⟩⟩
  | error h => exact ⟨.error h⟩

theorem unsupported (detail : String) : Runs t s (unsupported detail) P := ⟨.error rfl⟩

theorem unsupported_bind {g : α → Lower β} (detail : String) :
    Runs t s (Lowering.unsupported detail >>= g) Q :=
  ⟨.error rfl⟩

theorem modify {g : State → State} (hs : Sound t (g s)) (hsub : s.slots ⊆ (g s).slots) :
    Runs t s (modify g) fun _ _ => True :=
  ⟨.ok ⟨hs, hsub, trivial⟩⟩

theorem forM {l : List α} {g : α → Lower Unit} {R : List Slot → α → Prop} (hs : Sound t s)
    (hR : ∀ a ∈ l, R s.slots a)
    (hmono : ∀ slots slots' a, slots ⊆ slots' → R slots a → R slots' a)
    (hg : ∀ a s', Sound t s' → R s'.slots a → Runs t s' (g a) fun _ _ => True) :
    Runs t s (l.forM g) fun _ _ => True := by
  induction l generalizing s with
  | nil => exact pure hs trivial
  | cons a l ih =>
    rw [List.forM]
    refine (hg a s hs (hR a (by simp))).bind fun _ s₁ hs₁ hsub _ => ?_
    exact ih hs₁ fun b hb => hmono _ _ b hsub (hR b (by simp [hb]))

theorem mapM {l : List α} {g : α → Lower β} {R : List Slot → α → Prop} (hs : Sound t s)
    (hR : ∀ a ∈ l, R s.slots a)
    (hmono : ∀ slots slots' a, slots ⊆ slots' → R slots a → R slots' a)
    (hmono' : ∀ slots slots' b, slots ⊆ slots' → Q slots b → Q slots' b)
    (hg : ∀ a s', Sound t s' → R s'.slots a → Runs t s' (g a) Q) :
    Runs t s (l.mapM g) fun slots bs => ∀ b ∈ bs, Q slots b := by
  induction l generalizing s with
  | nil => exact pure hs (by simp)
  | cons a l ih =>
    rw [List.mapM_cons]
    refine (hg a s hs (hR a (by simp))).bind fun b s₁ hs₁ hsub hb => ?_
    refine (ih hs₁ fun a ha => hmono _ _ a hsub (hR a (by simp [ha]))).bind
      fun bs s₂ hs₂ hsub' hbs => ?_
    refine pure hs₂ fun b' hb' => ?_
    rcases List.mem_cons.mp hb' with rfl | hb'
    · exact hmono' _ _ _ hsub' hb
    · exact hbs b' hb'

end Runs

theorem Sound.push (hs : Sound t s) {i : Instruction} (hi : i.Shaped t s.slots) :
    Sound t { s with code := s.code.push i } := by
  refine ⟨fun j hj => ?_, hs.blocks, hs.objects, hs.homes⟩
  rw [Array.toList_push] at hj
  rcases List.mem_append.mp hj with hj | hj
  · exact hs.code j hj
  · exact List.mem_singleton.mp hj ▸ hi

theorem Sound.withFunction (hs : Sound t s) {f : Machine.Function}
    (hblocks : f.blocks = s.function.blocks) (hsub : s.slots ⊆ f.slots) :
    Sound t { s with function := f } := by
  refine ⟨fun i hi => (hs.code i hi).mono hsub, fun i hi => ?_, fun e he => hsub (hs.objects e he),
    fun name slot h => hsub (hs.homes name slot h)⟩
  have hmem : i ∈ s.function.instructions := by
    simpa [Machine.Function.instructions, hblocks] using hi
  exact (hs.blocks i hmem).mono hsub

theorem runs_emit (hs : Sound t s) {op : GenericOp} {operands : List Operand}
    (hlayout : operands.map (·.isPlace) ∈ op.layouts)
    (hframe : ∀ o ∈ operands, o.isPlace → o.IsPlaceIn s.slots)
    (hop : (op = .globalAddress → operands[1]?.any (·.isGlobal)) ∧ op ≠ .cmp) :
    Runs t s (emit op operands) fun _ _ => True :=
  .modify (hs.push (Instruction.shaped_generic hlayout hframe hop)) fun _ h => h

theorem runs_fresh (take : Machine.Function → Result (α × Machine.Function)) (hs : Sound t s)
    (h : Yields (fun r => r.2.blocks = s.function.blocks ∧ s.slots ⊆ r.2.slots ∧
      P r.2.slots r.1) (take s.function)) :
    Runs t s (do
      let (a, function) ← check (take (← get).function)
      modify fun s => { s with function := function }
      return a) P := by
  refine .get_bind ?_
  generalize take s.function = taken at h
  cases h with
  | error h => exact ⟨.error h⟩
  | ok h => exact ⟨.ok ⟨hs.withFunction h.1 h.2.1, h.2.1, h.2.2⟩⟩

theorem runs_freshId (hs : Sound t s) : Runs t s freshId fun _ _ => True := by
  refine runs_fresh (·.fresh) hs ((Machine.Function.yields_fresh _).mono fun r hr => ?_)
  refine ⟨hr.1, ?_, trivial⟩
  rw [Machine.Function.slots, hr.2]
  exact fun _ h => h

theorem runs_freshReg (hs : Sound t s) (ty : LowType) :
    Runs t s (freshReg ty) fun _ o => o.isPlace = false :=
  (runs_freshId hs).bind fun _ _ hs' _ _ => .pure hs' rfl

theorem runs_freshSlot (hs : Sound t s) (bytes : Nat) :
    Runs t s (freshSlot bytes) fun slots slot => slot ∈ slots := by
  refine runs_fresh (·.addSlot _) hs ?_
  rw [Machine.Function.addSlot]
  refine (Machine.Function.yields_fresh _).bind fun r hr => .pure ⟨hr.1, fun slot hslot => ?_, ?_⟩
  · simp only [State.slots, Machine.Function.slots, Machine.Frame.insert, hr.2, List.map_append,
      List.mem_append] at hslot ⊢
    exact .inl hslot
  · simp [Machine.Function.slots, Machine.Frame.insert]

theorem runs_freshParameter (hs : Sound t s) (ty : LowType) (isFloat isReturnBuffer : Bool) :
    Runs t s (freshParameter ty isFloat isReturnBuffer) fun _ _ => True := by
  refine runs_fresh (·.addParameter ty isFloat isReturnBuffer) hs ?_
  rw [Machine.Function.addParameter]
  refine (Machine.Function.yields_fresh _).bind fun r hr => .pure ⟨hr.1, ?_, trivial⟩
  simp only [State.slots, Machine.Function.slots, hr.2]
  exact fun _ h => h

theorem runs_tempReg (hs : Sound t s) (id : Ir.TempId) (ty : LowType) :
    Runs t s (tempReg id ty) fun _ o => o.isPlace = false := by
  refine .get_bind ?_
  split
  · exact .pure hs rfl
  · refine (runs_freshId hs).bind fun reg s₁ hs₁ _ _ => ?_
    refine (Runs.modify (g := fun s => { s with temps := (id, reg) :: s.temps })
      ⟨hs₁.code, hs₁.blocks, hs₁.objects, hs₁.homes⟩ fun _ h => h).bind fun _ s₂ hs₂ _ _ => ?_
    exact .pure hs₂ rfl

theorem runs_setHome (hs : Sound t s) (name : AggregateName) (home : Home)
    (h : ∀ slot, home = .slot slot → slot ∈ s.slots) :
    Runs t s (setHome name home) fun _ _ => True := by
  refine .modify ⟨hs.code, hs.blocks, hs.objects, fun name' slot hmem => ?_⟩ fun _ h => h
  rcases List.mem_cons.mp hmem with heq | hmem
  · cases heq
    exact h slot rfl
  · exact hs.homes name' slot hmem

/-! ## Values -/

theorem Sound.frameObject? (hs : Sound t s) {value : Ir.Value} {slot : Slot}
    (h : s.frameObject? value = some slot) : slot ∈ s.slots := by
  rcases State.frameObject?_cases h with ⟨id, hmem⟩ | ⟨name, hmem⟩
  · exact hs.objects (id, slot) hmem
  · exact hs.homes name slot hmem

theorem runs_emitAddress (hs : Sound t s) {dest : Operand} (hdest : dest.isPlace = false)
    (value : Ir.Value) : Runs t s (c.emitAddress dest value) fun _ _ => True := by
  refine .get_bind ?_
  split
  · next hslot =>
    have hplace := Operand.isPlaceIn_stack (hs.frameObject? hslot) 0 c.target.pointerType
    exact runs_emit hs (by simp [hdest, hplace.1, GenericOp.layouts]) (by simp [hdest, hplace])
      (by simp)
  · exact runs_emit hs (by simp [hdest, GenericOp.layouts]) (by simp [hdest])
      ⟨fun _ => rfl, by simp⟩
  · exact .pure hs trivial

theorem runs_addressOf (hs : Sound t s) (value : Ir.Value) :
    Runs t s (c.addressOf value) fun _ o => o.isPlace = false := by
  refine (runs_freshReg hs _).bind fun dest s₁ hs₁ _ hdest => ?_
  refine (runs_emitAddress hs₁ hdest value).bind fun _ s₂ hs₂ _ _ => ?_
  exact .pure hs₂ hdest

theorem runs_operand (hs : Sound t s) (value : Ir.Value) :
    Runs t s (c.operand value) fun _ o => o.isPlace = false := by
  unfold Scope.operand
  split
  · exact .pure hs rfl
  · exact .unsupported _
  · exact runs_addressOf hs _
  · refine .get_bind ?_
    split
    · exact runs_addressOf hs _
    · exact runs_tempReg hs _ _
  · refine .get_bind ?_
    split
    · exact .pure hs rfl
    · refine .get_bind ?_
      split
      · exact runs_addressOf hs _
      · exact .unsupported _

theorem runs_location (hs : Sound t s) (ptr : Ir.Value) (ty : LowType) :
    Runs t s (c.location ptr ty) fun slots o => o.IsPlaceIn slots := by
  refine .get_bind ?_
  split
  · next hslot => exact .pure hs (Operand.isPlaceIn_stack (hs.frameObject? hslot) _ _)
  · split
    · exact .unsupported _
    · refine (runs_operand hs ptr).bind fun base s₁ hs₁ _ _ => ?_
      split
      · exact .pure hs₁ (Operand.isPlaceIn_memory _ _ _ _)
      · exact .unsupported _

/-! ## Memory -/

mutual

theorem yields_size (bytes : Nat) : ∀ ty : Ir.Ty, Yields (fun _ => True) (ty.size bytes)
  | .void | .int .. | .float _ | .ptr _ => .ok trivial
  | .array _ element => (yields_size bytes element).bind fun _ _ => yields_fit _ _
  | .struct _ fields => yields_sizeAll bytes fields

theorem yields_sizeAll (bytes : Nat) :
    ∀ fields : List Ir.Ty, Yields (fun _ => True) (Ir.Ty.sizeAll bytes fields)
  | [] => .ok trivial
  | field :: fields => (yields_size bytes field).bind fun _ _ =>
      (yields_sizeAll bytes fields).bind fun _ _ => yields_fit _ _

end

theorem runs_size (hs : Sound t s) (ty : Ir.Ty) : Runs t s (c.size ty) fun _ _ => True :=
  .check hs (yields_size _ _)

theorem runs_fitsRegisters (hs : Sound t s) (ty : Ir.Ty) :
    Runs t s (c.fitsRegisters ty) fun _ _ => True := by
  refine (runs_size hs ty).bind fun bytes s₁ hs₁ _ _ => ?_
  refine (Runs.check hs₁ (yields_fit _ _)).bind fun bits s₂ hs₂ _ _ => ?_
  exact .pure hs₂ trivial

theorem runs_piecesOf (hs : Sound t s) (ty : Ir.Ty) :
    Runs t s (c.piecesOf ty) fun _ _ => True :=
  (runs_size hs ty).bind fun _ _ hs₁ _ _ => .pure hs₁ trivial

theorem isPlaceIn_piece {location : Operand} {slots : List Slot} (h : location.IsPlaceIn slots)
    (p : Piece) : (p.of location).IsPlaceIn slots := by
  obtain ⟨hplace, hslot⟩ := h
  obtain ⟨kind, ty, regClass⟩ := location
  cases kind with
  | memory base offset => exact ⟨rfl, fun s hs => by cases hs⟩
  | stack slot offset => exact ⟨rfl, hslot⟩
  | _ => cases hplace

theorem runs_emitPieceCopy (hs : Sound t s) {dest source : Operand} (hdest : dest.IsPlaceIn s.slots)
    (hsource : source.IsPlaceIn s.slots) (p : Piece) :
    Runs t s (Scope.emitPieceCopy dest source p) fun _ _ => True := by
  refine (runs_freshReg hs p.ty).bind fun temp s₁ hs₁ hsub htemp => ?_
  have hload := isPlaceIn_piece (hsource.mono hsub) p
  refine (runs_emit hs₁ (by simp [htemp, hload.1, GenericOp.layouts]) (by simp [htemp, hload])
    (by simp)).bind fun _ s₂ hs₂ hsub' _ => ?_
  have hstore := isPlaceIn_piece ((hdest.mono hsub).mono hsub') p
  exact runs_emit hs₂ (by simp [htemp, hstore.1, GenericOp.layouts]) (by simp [htemp, hstore])
    (by simp)

theorem runs_emitCopy (hs : Sound t s) {dest source : Operand} (hdest : dest.IsPlaceIn s.slots)
    (hsource : source.IsPlaceIn s.slots) (bytes : Nat) :
    Runs t s (c.emitCopy dest source bytes) fun _ _ => True :=
  .forM (R := fun slots _ => dest.IsPlaceIn slots ∧ source.IsPlaceIn slots) hs
    (fun _ _ => ⟨hdest, hsource⟩) (fun _ _ _ hsub h => ⟨h.1.mono hsub, h.2.mono hsub⟩)
    fun p _ hs' h => runs_emitPieceCopy hs' h.1 h.2 p

theorem runs_emitPieceLoad (hs : Sound t s) {location : Operand}
    (hlocation : location.IsPlaceIn s.slots) (p : Piece) :
    Runs t s (Scope.emitPieceLoad location p) fun _ _ => True := by
  refine (runs_freshId hs).bind fun id s₁ hs₁ hsub _ => ?_
  have hload := isPlaceIn_piece (hlocation.mono hsub) p
  refine (runs_emit hs₁ (by simp [hload.1, GenericOp.layouts]) (by simp [hload])
    (by simp)).bind fun _ s₂ hs₂ _ _ => ?_
  exact .pure hs₂ trivial

theorem runs_lowerLoad (hs : Sound t s) (result : Ir.TempId) (ptr : Ir.Value) (ty : Ir.Ty) :
    Runs t s (c.lowerLoad result ptr ty) fun _ _ => True := by
  unfold Scope.lowerLoad
  split
  · refine (runs_location hs ptr _).bind fun location s₁ hs₁ _ hlocation => ?_
    refine (runs_fitsRegisters hs₁ ty).bind fun fits s₂ hs₂ hsub₂ _ => ?_
    split
    · refine (runs_piecesOf hs₂ ty).bind fun pieces s₃ hs₃ hsub₃ _ => ?_
      refine (Runs.mapM (Q := fun _ _ => True) (R := fun slots _ => location.IsPlaceIn slots) hs₃
        (fun _ _ => (hlocation.mono hsub₂).mono hsub₃) (fun _ _ _ hsub h => h.mono hsub)
        (fun _ _ _ _ _ => trivial) fun p _ hs' h => runs_emitPieceLoad hs' h p).bind
          fun parts s₄ hs₄ _ _ => ?_
      exact runs_setHome hs₄ _ _ fun slot h => by cases h
    · refine (runs_size hs₂ ty).bind fun bytes s₃ hs₃ hsub₃ _ => ?_
      refine (runs_freshSlot hs₃ bytes).bind fun slot s₄ hs₄ hsub₄ hslot => ?_
      refine (runs_emitCopy hs₄ (Operand.isPlaceIn_stack hslot _ _)
        (((hlocation.mono hsub₂).mono hsub₃).mono hsub₄) bytes).bind fun _ s₅ hs₅ hsub₅ _ => ?_
      exact runs_setHome hs₅ _ _ fun slot' h => by cases h; exact hsub₅ hslot
  · refine (runs_location hs ptr _).bind fun location s₁ hs₁ _ hlocation => ?_
    refine (runs_tempReg hs₁ result _).bind fun dest s₂ hs₂ hsub hdest => ?_
    have hplace := hlocation.mono hsub
    exact runs_emit hs₂ (by simp [hdest, hplace.1, GenericOp.layouts]) (by simp [hdest, hplace])
      (by simp)

theorem runs_lowerStore (hs : Sound t s) (value ptr : Ir.Value) :
    Runs t s (c.lowerStore value ptr) fun _ _ => True := by
  dsimp only [Scope.lowerStore]
  split
  · refine (runs_location hs ptr _).bind fun location s₁ hs₁ _ hlocation => .get_bind ?_
    split
    · refine .forM (R := fun slots _ => location.IsPlaceIn slots) hs₁ (fun _ _ => hlocation)
        (fun _ _ _ hsub h => h.mono hsub) fun part s' hs' h => ?_
      have hplace := isPlaceIn_piece h part.2
      exact runs_emit hs' (by simp [hplace.1, GenericOp.layouts]) (by simp [hplace]) (by simp)
    · refine (runs_location hs₁ value _).bind fun source s₂ hs₂ hsub hsource => ?_
      refine (runs_size hs₂ _).bind fun bytes s₃ hs₃ hsub' _ => ?_
      exact runs_emitCopy hs₃ ((hlocation.mono hsub).mono hsub') (hsource.mono hsub') bytes
  · refine (runs_location hs ptr _).bind fun location s₁ hs₁ _ hlocation => ?_
    refine (runs_operand hs₁ value).bind fun source s₂ hs₂ hsub hsource => ?_
    have hplace := hlocation.mono hsub
    exact runs_emit hs₂ (by simp [hsource, hplace.1, GenericOp.layouts])
      (by simp [hsource, hplace]) (by simp)

theorem runs_emitOffset (hs : Sound t s) {dest base : Operand} (hdest : dest.isPlace = false)
    (hbase : base.isPlace = false) (offset : Int) :
    Runs t s (c.emitOffset dest base offset) fun _ _ => True := by
  unfold Scope.emitOffset
  split
  · exact runs_emit hs (by simp [hdest, hbase, GenericOp.layouts]) (by simp [hdest, hbase])
      (by simp)
  · exact runs_emit hs (by simp [hdest, hbase, GenericOp.layouts]) (by simp [hdest, hbase])
      (by simp)

theorem runs_wideIndex (hs : Sound t s) (index : Ir.Value) :
    Runs t s (c.wideIndex index) fun _ o => o.isPlace = false := by
  refine (runs_operand hs index).bind fun narrow s₁ hs₁ _ hnarrow => ?_
  split
  · refine (runs_freshReg hs₁ _).bind fun wide s₂ hs₂ _ hwide => ?_
    refine (runs_emit hs₂ ?_ (by simp [hwide, hnarrow]) ?_).bind fun _ s₃ hs₃ _ _ => ?_
    · split <;> simp [hwide, hnarrow, GenericOp.layouts]
    · split <;> simp
    · exact .pure hs₃ hwide
  · exact .pure hs₁ hnarrow

theorem runs_scaledIndex (hs : Sound t s) (index : Ir.Value) (element : Int) :
    Runs t s (c.scaledIndex index element) fun _ o => o.isPlace = false := by
  refine (runs_wideIndex hs index).bind fun wide s₁ hs₁ _ hwide => ?_
  split
  · exact .pure hs₁ hwide
  · refine (runs_freshReg hs₁ _).bind fun product s₂ hs₂ _ hproduct => ?_
    refine (runs_emit hs₂ (by simp [hwide, hproduct, GenericOp.layouts])
      (by simp [hwide, hproduct]) (by simp)).bind fun _ s₃ hs₃ _ _ => ?_
    exact .pure hs₃ hproduct

theorem yields_fieldOffset? (bytes : Nat) (ty : Ir.Ty) (index : Nat) :
    Yields (fun _ => True) (ty.fieldOffset? bytes index) := by
  unfold Ir.Ty.fieldOffset?
  split
  · split
    · exact (yields_sizeAll bytes _).bind fun _ _ => .ok trivial
    · exact .ok trivial
  · exact .ok trivial

theorem runs_lowerElementPtr (hs : Sound t s) (result : Ir.TempId) (source index : Ir.Value) :
    Runs t s (c.lowerElementPtr result source index) fun _ _ => True := by
  dsimp only [Scope.lowerElementPtr]
  refine (runs_operand hs source).bind fun base s₁ hs₁ _ hbase => ?_
  refine (runs_tempReg hs₁ result _).bind fun dest s₂ hs₂ _ hdest => ?_
  split
  · split
    · refine (Runs.check hs₂ (yields_fieldOffset? _ _ _)).bind fun offset s₃ hs₃ _ _ => ?_
      cases offset with
      | none => exact .unsupported _
      | some offset => exact runs_emitOffset hs₃ hdest hbase _
    · exact .unsupported _
  · refine (runs_size hs₂ _).bind fun bytes s₃ hs₃ _ _ => ?_
    split
    · refine (Runs.check hs₃ (yields_fitSigned _)).bind fun offset s₄ hs₄ _ _ => ?_
      exact runs_emitOffset hs₄ hdest hbase _
    · refine (runs_scaledIndex hs₃ index _).bind fun scaled s₄ hs₄ _ hscaled => ?_
      exact runs_emit hs₄ (by simp [hdest, hbase, hscaled, GenericOp.layouts])
        (by simp [hdest, hbase, hscaled]) (by simp)

/-! ## Calls and returns -/

theorem layout_moveOp (ty : LowType) : (moveOp ty).layouts = [[false, false]] := by
  rw [moveOp]
  split <;> rfl

theorem runs_emitInto (hs : Sound t s) {dest source : Operand} (hdest : dest.isPlace = false)
    (hsource : source.isPlace → source.IsPlaceIn s.slots) :
    Runs t s (emitInto dest source) fun _ _ => True := by
  unfold emitInto
  cases hplace : source.isPlace with
  | true =>
    have hop : (source.isMemory || source.isStack) = true := hplace
    rw [if_pos hop]
    exact runs_emit hs (by simp [hdest, hplace, GenericOp.layouts])
      (by simp [hdest, hsource hplace]) (by simp)
  | false =>
    have hop : ¬ (source.isMemory || source.isStack) = true := by simpa [Operand.isPlace] using hplace
    rw [if_neg hop]
    refine runs_emit hs (by simp [hdest, hplace, layout_moveOp]) (by simp [hdest, hplace]) ?_
    rw [moveOp]
    split <;> simp

/-- A source of an argument: a place in the frame or in memory, or no place at all. -/
def IsSource (slots : List Slot) (o : Operand) : Prop := o.isPlace → o.IsPlaceIn slots

theorem IsSource.mono {slots slots' : List Slot} {o : Operand} (h : IsSource slots o)
    (hsub : slots ⊆ slots') : IsSource slots' o :=
  fun hplace => (h hplace).mono hsub

theorem isSource_of_not_place {slots : List Slot} {o : Operand} (h : o.isPlace = false) :
    IsSource slots o := by
  intro hplace
  rw [h] at hplace
  cases hplace

/-- A register, and what is moved or loaded into it. -/
def IsPart (slots : List Slot) (part : Operand × Operand) : Prop :=
  part.1.isPlace = false ∧ IsSource slots part.2

theorem IsPart.mono {slots slots' : List Slot} {part : Operand × Operand} (h : IsPart slots part)
    (hsub : slots ⊆ slots') : IsPart slots' part :=
  ⟨h.1, h.2.mono hsub⟩

theorem runs_stage (hs : Sound t s) {source : Operand} (hsource : IsSource s.slots source)
    (ty : LowType) : Runs t s (stage source ty) IsSource := by
  refine .get_bind ?_
  split
  · refine (runs_freshReg hs ty).bind fun staged s₁ hs₁ hsub hstaged => ?_
    refine (runs_emitInto hs₁ hstaged (hsource.mono hsub)).bind fun _ s₂ hs₂ _ _ => ?_
    exact .pure hs₂ (isSource_of_not_place hstaged)
  · exact .pure hs hsource

theorem runs_aggregateParts (hs : Sound t s) (value : Ir.Value) (registers : List Machine.RegId) :
    Runs t s (c.aggregateParts value registers) fun slots parts =>
      ∀ part ∈ parts, IsPart slots part := by
  dsimp only [Scope.aggregateParts]
  refine (runs_piecesOf hs _).bind fun chunks s₁ hs₁ _ _ => ?_
  split
  · exact .unsupported_bind _
  · refine .get_bind ?_
    split
    · refine .pure hs₁ fun part hpart => ?_
      obtain ⟨⟨⟨reg, p⟩, root⟩, -, rfl⟩ := List.mem_map.mp hpart
      exact ⟨rfl, isSource_of_not_place rfl⟩
    · refine (runs_location hs₁ value _).bind fun location s₂ hs₂ _ hlocation => ?_
      refine .pure hs₂ fun part hpart => ?_
      obtain ⟨⟨p, root⟩, -, rfl⟩ := List.mem_map.mp hpart
      exact ⟨rfl, fun _ => isPlaceIn_piece hlocation p⟩

/-- An argument that `emitPlaced` can write. -/
def IsPlaced (slots : List Slot) (p : Placed) : Prop :=
  p.dest.isPlace = false ∧ ∀ source, p.argument = .copy source → IsSource slots source

theorem IsPlaced.mono {slots slots' : List Slot} {p : Placed} (h : IsPlaced slots p)
    (hsub : slots ⊆ slots') : IsPlaced slots' p :=
  ⟨h.1, fun source hsource => (h.2 source hsource).mono hsub⟩

theorem isPlaced_copy {slots : List Slot} {dest source : Operand} (hdest : dest.isPlace = false)
    (hsource : IsSource slots source) : IsPlaced slots ⟨dest, .copy source⟩ := by
  refine ⟨hdest, fun source' heq => ?_⟩
  cases heq
  exact hsource

theorem isPlaced_address {slots : List Slot} {dest : Operand} (hdest : dest.isPlace = false)
    (value : Ir.Value) : IsPlaced slots ⟨dest, .address value⟩ :=
  ⟨hdest, fun _ h => by cases h⟩

theorem runs_placeReturnBuffer (hs : Sound t s) (arg : Ir.Value) :
    Runs t s (c.placeReturnBuffer arg) IsPlaced := by
  refine .get_bind ?_
  split
  · exact .pure hs (isPlaced_address rfl arg)
  · refine (runs_operand hs arg).bind fun source s₁ hs₁ _ hsource => ?_
    refine (runs_stage hs₁ (isSource_of_not_place hsource) _).bind fun staged s₂ hs₂ _ hstaged => ?_
    exact .pure hs₂ (isPlaced_copy rfl hstaged)

theorem runs_placeAggregate (hs : Sound t s) (callee : String) (index : Nat) (arg : Ir.Value)
    (cursor : Cursor) :
    Runs t s (c.placeAggregate callee index arg cursor) fun slots r =>
      ∀ p ∈ r.1, IsPlaced slots p := by
  refine (runs_fitsRegisters hs arg.ty).bind fun fits s₁ hs₁ _ _ => ?_
  split
  · exact .unsupported_bind _
  · refine (runs_aggregateParts hs₁ arg _).bind fun parts s₂ hs₂ _ hparts => ?_
    refine (Runs.mapM (Q := IsPlaced) (R := IsPart) hs₂ hparts
      (fun _ _ _ hsub h => h.mono hsub) (fun _ _ _ hsub h => h.mono hsub)
      fun part s' hs' h => ?_).bind fun placed s₃ hs₃ _ hplaced => .pure hs₃ hplaced
    refine (runs_stage hs' h.2 _).bind fun staged s₄ hs₄ _ hstaged => ?_
    exact .pure hs₄ (isPlaced_copy h.1 hstaged)

theorem runs_placeScalar (hs : Sound t s) (callee : String) (arg : Ir.Value) (cursor : Cursor) :
    Runs t s (c.placeScalar callee arg cursor) fun slots r => IsPlaced slots r.1 := by
  dsimp only [Scope.placeScalar]
  refine (Runs.check (P := fun _ => True) hs (.orFail rfl fun _ _ => trivial)).bind
    fun root s₁ hs₁ _ _ => .get_bind ?_
  split
  · exact .pure hs₁ (isPlaced_address rfl arg)
  · refine (runs_operand hs₁ arg).bind fun source s₂ hs₂ _ hsource => ?_
    refine (runs_stage hs₂ (isSource_of_not_place hsource) _).bind fun staged s₃ hs₃ _ hstaged => ?_
    exact .pure hs₃ (isPlaced_copy rfl hstaged)

theorem runs_placeArguments (hs : Sound t s) (callee : String) (returnBuffer : Option Nat)
    (args : List (Ir.Value × Nat)) (cursor : Cursor) :
    Runs t s (c.placeArguments callee returnBuffer args cursor) fun slots placed =>
      ∀ p ∈ placed, IsPlaced slots p := by
  induction args generalizing s cursor with
  | nil => exact .pure hs (by simp)
  | cons arg args ih =>
    unfold Scope.placeArguments
    dsimp only
    split
    · refine (runs_placeReturnBuffer hs arg.1).bind fun placed s₁ hs₁ _ hplaced => ?_
      refine (ih hs₁ cursor).bind fun rest s₂ hs₂ hsub hrest => .pure hs₂ fun p hp => ?_
      rcases List.mem_cons.mp hp with rfl | hp
      · exact hplaced.mono hsub
      · exact hrest p hp
    · split
      · refine (runs_placeAggregate hs callee _ arg.1 cursor).bind fun r s₁ hs₁ _ hplaced => ?_
        refine (ih hs₁ r.2).bind fun rest s₂ hs₂ hsub hrest => .pure hs₂ fun p hp => ?_
        rcases List.mem_append.mp hp with hp | hp
        · exact (hplaced p hp).mono hsub
        · exact hrest p hp
      · refine (runs_placeScalar hs callee arg.1 cursor).bind fun r s₁ hs₁ _ hplaced => ?_
        refine (ih hs₁ r.2).bind fun rest s₂ hs₂ hsub hrest => .pure hs₂ fun p hp => ?_
        rcases List.mem_cons.mp hp with rfl | hp
        · exact hplaced.mono hsub
        · exact hrest p hp

theorem runs_emitPlaced (hs : Sound t s) {p : Placed} (hp : IsPlaced s.slots p) :
    Runs t s (c.emitPlaced p) fun _ _ => True := by
  unfold Scope.emitPlaced
  split
  · next source harg => exact runs_emitInto hs hp.1 (hp.2 source harg)
  · exact runs_emitAddress hs hp.1 _

theorem runs_receiveAggregate (hs : Sound t s) (callee : String) (result : Ir.TempId)
    (ty : Ir.Ty) : Runs t s (c.receiveAggregate callee result ty) fun _ _ => True := by
  refine (runs_fitsRegisters hs ty).bind fun fits s₁ hs₁ _ _ => ?_
  split
  · exact .unsupported_bind _
  · refine (runs_size hs₁ ty).bind fun bytes s₂ hs₂ _ _ => ?_
    refine (runs_freshSlot hs₂ bytes).bind fun slot s₃ hs₃ _ hslot => ?_
    refine (runs_piecesOf hs₃ ty).bind fun chunks s₄ hs₄ hsub₄ _ => ?_
    refine (Runs.forM (R := fun slots _ => slot ∈ slots) hs₄ (fun _ _ => hsub₄ hslot)
      (fun _ _ _ hsub h => hsub h) fun part s' hs' h => ?_).bind fun _ s₅ hs₅ hsub₅ _ => ?_
    · have hplace := isPlaceIn_piece (Operand.isPlaceIn_stack h 0 c.target.pointerType) part.1
      exact runs_emit hs' (by simp [hplace.1, Scope.physical, GenericOp.layouts])
        (by simp [hplace, Scope.physical]) (by simp)
    · exact runs_setHome hs₅ _ _ fun slot' h => by cases h; exact hsub₅ (hsub₄ hslot)

theorem runs_receiveScalar (hs : Sound t s) (result : Ir.TempId) (ty : Ir.Ty) :
    Runs t s (c.receiveScalar result ty) fun _ _ => True := by
  refine (Runs.check (P := fun _ => True) hs (.orFail rfl fun _ _ => trivial)).bind
    fun root s₁ hs₁ _ _ => ?_
  refine (runs_tempReg hs₁ result _).bind fun dest s₂ hs₂ _ hdest => ?_
  refine runs_emit hs₂ (by simp [hdest, Scope.physical, layout_moveOp])
    (by simp [hdest, Scope.physical]) ?_
  rw [moveOp]
  split <;> simp

theorem runs_lowerCall (hs : Sound t s) (result : Option Ir.TempId) (callee : String)
    (args : List Ir.Value) (ty : Ir.Ty) (returnBuffer : Option Nat) :
    Runs t s (c.lowerCall result callee args ty returnBuffer) fun _ _ => True := by
  refine (Runs.modify (g := fun s => { s with function := { s.function with isCaller := true } })
    (hs.withFunction rfl fun _ h => h) fun _ h => h).bind fun _ s₁ hs₁ _ _ => ?_
  refine (runs_placeArguments hs₁ callee returnBuffer _ _).bind fun placed s₂ hs₂ _ hplaced => ?_
  refine (Runs.forM (R := IsPlaced) hs₂ hplaced (fun _ _ _ hsub h => h.mono hsub)
    fun p s' hs' h => runs_emitPlaced hs' h).bind fun _ s₃ hs₃ _ _ => ?_
  refine (runs_emit hs₃ (by simp [GenericOp.layouts]) (by simp) (by simp)).bind
    fun _ s₄ hs₄ _ _ => ?_
  split
  · exact .pure hs₄ trivial
  · split
    · exact runs_receiveAggregate hs₄ callee _ ty
    · exact runs_receiveScalar hs₄ _ ty

theorem runs_lowerReturn (hs : Sound t s) (value : Option Ir.Value) :
    Runs t s (c.lowerReturn value) fun _ _ => True := by
  cases value with
  | none => exact runs_emit hs (by simp [GenericOp.layouts]) (by simp) (by simp)
  | some value =>
    dsimp only [Scope.lowerReturn]
    split
    · refine (runs_fitsRegisters hs _).bind fun fits s₁ hs₁ _ _ => ?_
      split
      · exact .unsupported_bind _
      · refine (runs_aggregateParts hs₁ value _).bind fun parts s₂ hs₂ _ hparts => ?_
        refine (Runs.forM (R := IsPart) hs₂ hparts (fun _ _ _ hsub h => h.mono hsub)
          fun part s' hs' h => runs_emitInto hs' h.1 h.2).bind fun _ s₃ hs₃ _ _ => ?_
        exact runs_emit hs₃ (by simp [GenericOp.layouts]) (by simp) (by simp)
    · refine (runs_operand hs value).bind fun operand s₁ hs₁ _ hoperand => ?_
      split
      · refine (Runs.check (P := fun _ => True) hs₁ (.orFail rfl fun _ _ => trivial)).bind
          fun root s₂ hs₂ _ _ => ?_
        refine (runs_emit hs₂ (by simp [hoperand, Scope.physical, GenericOp.layouts])
          (by simp [hoperand, Scope.physical]) (by simp)).bind fun _ s₃ hs₃ _ _ => ?_
        exact runs_emit hs₃ (by simp [GenericOp.layouts]) (by simp) (by simp)
      · exact runs_emit hs₁ (by simp [hoperand, GenericOp.layouts]) (by simp [hoperand]) (by simp)

/-! ## Functions -/

theorem layouts_binaryOp (op : Ir.BinaryOp) : (binaryOp op).layouts = [[false, false, false]] := by
  cases op <;> rfl

theorem layouts_unaryOp (ty : Ir.Ty) (op : Ir.UnaryOp) :
    (unaryOp ty op).layouts = [[false, false]] := by
  cases op with
  | bitcast =>
    rw [unaryOp]
    split <;> rfl
  | _ => rfl

theorem runs_lowerCompare (hs : Sound t s) (result : Ir.TempId) (rel : Ir.Relation)
    (lhs rhs : Ir.Value) : Runs t s (c.lowerCompare result rel lhs rhs) fun _ _ => True := by
  dsimp only [Scope.lowerCompare]
  refine (runs_operand hs lhs).bind fun lhs' s₁ hs₁ _ hlhs => ?_
  refine (runs_operand hs₁ rhs).bind fun rhs' s₂ hs₂ _ hrhs => ?_
  refine (runs_tempReg hs₂ result _).bind fun dest s₃ hs₃ _ hdest => ?_
  generalize hop : (if lhs.ty.isFloat then GenericOp.cmpf else .cmp) = op
  have hcmp : op = .cmpf ∨ op = .cmp := by
    rw [← hop]
    split <;> simp
  refine .modify (hs₃.push (Instruction.shaped_of_generic rfl ?_ ?_ ?_ fun _ => rfl)) fun _ h => h
  · show [dest, lhs', rhs'].map (·.isPlace) ∈ op.layouts
    rcases hcmp with rfl | rfl <;> simp [hdest, hlhs, hrhs, GenericOp.layouts]
  · show ∀ o ∈ [dest, lhs', rhs'], o.isPlace → o.IsPlaceIn s₃.slots
    simp [hdest, hlhs, hrhs]
  · rcases hcmp with rfl | rfl <;> simp

theorem runs_lowerJumpUnless (hs : Sound t s) (next target : Option String) :
    Runs t s (Scope.lowerJumpUnless next target) fun _ _ => True := by
  unfold Scope.lowerJumpUnless
  split
  · exact runs_emit hs (by simp [GenericOp.layouts]) (by simp) (by simp)
  · exact .pure hs trivial

theorem runs_lowerBranch (hs : Sound t s) (condition : Ir.Value) (trueTarget : String)
    (falseTarget next : Option String) :
    Runs t s (c.lowerBranch condition trueTarget falseTarget next) fun _ _ => True := by
  unfold Scope.lowerBranch
  split
  · exact runs_lowerJumpUnless hs _ _
  · refine (runs_operand hs condition).bind fun operand s₁ hs₁ _ hoperand => ?_
    dsimp only
    generalize falseTarget.filter (fun t => some t != next) = otherwise
    cases otherwise with
    | none =>
      refine runs_emit hs₁ ?_ ?_ (by simp)
      · simp [hoperand, GenericOp.layouts]
      · simp [hoperand]
    | some label =>
      refine runs_emit hs₁ ?_ ?_ (by simp)
      · simp [hoperand, GenericOp.layouts]
      · simp [hoperand]

theorem runs_lowerInstruction (hs : Sound t s) (next : Option String) (i : Ir.Instruction) :
    Runs t s (c.lowerInstruction next i) fun _ _ => True := by
  cases i with
  | binary result op lhs rhs ty =>
    refine (runs_operand hs lhs).bind fun lhs' s₁ hs₁ _ hlhs => ?_
    refine (runs_operand hs₁ rhs).bind fun rhs' s₂ hs₂ _ hrhs => ?_
    refine (runs_tempReg hs₂ result _).bind fun dest s₃ hs₃ _ hdest => ?_
    refine runs_emit hs₃ (by simp [hdest, hlhs, hrhs, layouts_binaryOp])
      (by simp [hdest, hlhs, hrhs]) ?_
    cases op <;> simp [binaryOp]
  | unary result op operand ty =>
    refine (runs_operand hs operand).bind fun source s₁ hs₁ _ hsource => ?_
    refine (runs_tempReg hs₁ result _).bind fun dest s₂ hs₂ _ hdest => ?_
    refine runs_emit hs₂ (by simp [hdest, hsource, layouts_unaryOp]) (by simp [hdest, hsource]) ?_
    cases op <;> simp [unaryOp]
    split <;> simp
  | compare result rel lhs rhs => exact runs_lowerCompare hs result rel lhs rhs
  | stackAlloc result name ty =>
    refine (runs_size hs ty).bind fun bytes s₁ hs₁ _ _ => ?_
    refine (runs_freshSlot hs₁ bytes).bind fun slot s₂ hs₂ _ hslot => ?_
    refine .modify ⟨hs₂.code, hs₂.blocks, fun e he => ?_, hs₂.homes⟩ fun _ h => h
    rcases List.mem_cons.mp he with rfl | he
    · exact hslot
    · exact hs₂.objects e he
  | load result ptr ty => exact runs_lowerLoad hs result ptr ty
  | store value ptr => exact runs_lowerStore hs value ptr
  | elementPtr result source index ty => exact runs_lowerElementPtr hs result source index
  | memCopy dest source bytes =>
    refine (runs_location hs dest _).bind fun dest' s₁ hs₁ _ hdest => ?_
    refine (runs_location hs₁ source _).bind fun source' s₂ hs₂ hsub hsource => ?_
    exact runs_emitCopy hs₂ (hdest.mono hsub) hsource _
  | call result callee args ty returnBuffer => exact runs_lowerCall hs result callee args ty _
  | jump target => exact runs_emit hs (by simp [GenericOp.layouts]) (by simp) (by simp)
  | branch condition trueTarget falseTarget =>
    exact runs_lowerBranch hs condition trueTarget falseTarget next
  | ret value => exact runs_lowerReturn hs value

theorem runs_setParameter (hs : Sound t s) (name : String) (id : Machine.RegId) (ty : LowType) :
    Runs t s (Scope.setParameter name id ty) fun _ _ => True :=
  .modify ⟨hs.code, hs.blocks, hs.objects, hs.homes⟩ fun _ h => h

theorem runs_lowerParameter (hs : Sound t s) (p : Ir.Parameter) :
    Runs t s (c.lowerParameter p) fun _ _ => True := by
  unfold Scope.lowerParameter
  split
  · refine (runs_freshParameter hs _ _ _).bind fun id s₁ hs₁ _ _ => ?_
    exact runs_setParameter hs₁ _ _ _
  · split
    · refine (runs_fitsRegisters hs p.ty).bind fun fits s₁ hs₁ _ _ => ?_
      split
      · exact .unsupported_bind _
      · refine (runs_size hs₁ p.ty).bind fun bytes s₂ hs₂ _ _ => ?_
        refine (runs_freshSlot hs₂ bytes).bind fun slot s₃ hs₃ _ hslot => ?_
        refine (runs_piecesOf hs₃ p.ty).bind fun chunks s₄ hs₄ hsub₄ _ => ?_
        refine (Runs.forM (R := fun slots _ => slot ∈ slots) hs₄ (fun _ _ => hsub₄ hslot)
          (fun _ _ _ hsub h => hsub h) fun piece s' hs' h => ?_).bind fun _ s₅ hs₅ hsub₅ _ => ?_
        · refine (runs_freshParameter hs' _ _ _).bind fun id s₆ hs₆ hsub₆ _ => ?_
          have hplace := isPlaceIn_piece
            (Operand.isPlaceIn_stack (hsub₆ h) 0 c.target.pointerType) piece
          exact runs_emit hs₆ (by simp [hplace.1, GenericOp.layouts]) (by simp [hplace]) (by simp)
        · exact runs_setHome hs₅ _ _ fun slot' h => by cases h; exact hsub₅ (hsub₄ hslot)
    · refine (runs_freshParameter hs _ _ _).bind fun id s₁ hs₁ _ _ => ?_
      exact runs_setParameter hs₁ _ _ _

theorem runs_closeBlock (hs : Sound t s) (name : String) :
    Runs t s (Scope.closeBlock name) fun _ _ => True := by
  refine .modify ⟨by simp, fun i hi => ?_, hs.objects, hs.homes⟩ fun _ h => h
  obtain ⟨b, hb, hi⟩ := Machine.Function.mem_instructions.mp hi
  rcases List.mem_append.mp hb with hb | hb
  · exact hs.blocks i (Machine.Function.mem_instructions.mpr ⟨b, hb, hi⟩)
  · rw [List.mem_singleton.mp hb] at hi
    exact hs.code i hi

theorem runs_lowerBlocks (hs : Sound t s) (blocks : List Ir.Block) :
    Runs t s (c.lowerBlocks blocks) fun _ _ => True := by
  induction blocks generalizing s with
  | nil => exact .pure hs trivial
  | cons b rest ih =>
    refine (Runs.forM (R := fun _ _ => True) hs (fun _ _ => trivial) (fun _ _ _ _ _ => trivial)
      fun i s' hs' _ => runs_lowerInstruction hs' _ i).bind fun _ s₁ hs₁ _ _ => ?_
    exact (runs_closeBlock hs₁ b.name).bind fun _ s₂ hs₂ _ _ => ih hs₂

/-- **A lowered function is shaped** over its own frame. -/
theorem yields_lowerFunction (t : Target) (f : Ir.Function) :
    Yields (fun g => g.All (·.Shaped t g.slots)) (lowerFunction t f) := by
  rw [lowerFunction]
  have hstart : Sound t { function := { name := f.name } } :=
    ⟨by simp, by simp [Machine.Function.All, Machine.Function.instructions], by simp, by simp⟩
  have hbody : Runs t { function := { name := f.name } } (do
      f.parameters.forM (Scope.lowerParameter ⟨t, f.name⟩)
      Scope.lowerBlocks ⟨t, f.name⟩ f.blocks) fun _ _ => True := by
    refine (Runs.forM (R := fun _ _ => True) hstart (fun _ _ => trivial) (fun _ _ _ _ _ => trivial)
      fun p s' hs' _ => runs_lowerParameter hs' p).bind fun _ s₁ hs₁ _ _ => ?_
    exact runs_lowerBlocks hs₁ _
  exact hbody.yields.bind fun r hr => .pure hr.1.blocks

/-! ## Modules -/

theorem yields_push (d : Machine.Data) (e : Machine.DataEntry) :
    Yields (fun _ => True) (d.push e) :=
  (yields_fit _ _).bind fun _ _ => .pure trivial

theorem yields_allocate (d : Machine.Data) (bytes : Nat) (value : Int) :
    Yields (fun _ => True) (d.allocate bytes value) := by
  rw [Machine.Data.allocate]
  split
  · exact yields_push _ _
  · split
    · exact yields_push _ _
    · exact .error rfl

theorem yields_pushZeros (d : Machine.Data) (bytes : Nat) :
    Yields (fun _ => True) (pushZeros d bytes) := by
  rw [pushZeros]
  split
  · exact .ok trivial
  · exact yields_push _ _

theorem yields_allocateAll (d : Machine.Data) (sizes : List Nat) (values : List Int64) :
    Yields (fun _ => True) (allocateAll d sizes values) := by
  induction sizes generalizing d values with
  | nil => exact .ok trivial
  | cons size sizes ih => exact (yields_allocate _ _ _).bind fun d' _ => ih d' _

theorem yields_allocateFirst (d : Machine.Data) (value : Int64) (sizes : List Nat) :
    Yields (fun _ => True) (allocateFirst d value sizes) := by
  cases sizes with
  | nil => exact .ok trivial
  | cons first rest => exact (yields_allocate _ _ _).bind fun d' _ => yields_pushZeros _ _

mutual

theorem yields_leafCount : ∀ ty : Ir.Ty, Yields (fun _ => True) ty.leafCount
  | .void | .int .. | .float _ | .ptr _ => .ok trivial
  | .array _ element => (yields_leafCount element).bind fun _ _ => by
      split
      · exact .error rfl
      · exact .pure trivial
  | .struct _ fields => yields_leafCountAll fields

theorem yields_leafCountAll :
    ∀ fields : List Ir.Ty, Yields (fun _ => True) (Ir.Ty.leafCountAll fields)
  | [] => .ok trivial
  | field :: fields => (yields_leafCount field).bind fun _ _ =>
      (yields_leafCountAll fields).bind fun _ _ => .pure trivial

end

theorem yields_lowerGlobal (bytes : Nat) (g : Ir.Global) :
    Yields (fun _ => True) (lowerGlobal bytes g) := by
  rw [lowerGlobal]
  refine (yields_size _ _).bind fun total _ => (yields_leafCount _).bind fun count _ => ?_
  split
  · exact yields_pushZeros _ _
  · exact yields_allocateFirst _ _ _
  · split
    · exact .error rfl
    · exact yields_allocateAll _ _ _
  · exact (yields_push _ _).bind fun _ _ => yields_pushZeros _ _

theorem yields_lowerModule (t : Target) (m : Ir.Module) :
    Yields (fun code => ∀ f ∈ code.functions, f.All (·.Shaped t f.slots)) (lowerModule t m) := by
  rw [lowerModule]
  refine (Yields.mapM fun g _ => yields_lowerGlobal t.pointerBytes g).bind fun globals _ => ?_
  refine (Yields.mapM fun f _ => yields_lowerFunction t f).bind fun functions hfunctions => ?_
  exact .pure hfunctions

end Retarget.Lowering
