import Retarget.Proofs.Convention.Calls
import Retarget.Proofs.Lowering.Backing

/-!
# Registers that are read are written

Where a function is in single-assignment form and laid out in order, its lowered form writes every
register that it reads, but for parameters (`readsDefined_lowerFunction`).  A scalar may be defined
behind its uses, since it keeps the register of its first use.  A local may not
(`not_readsDefined_stray`): what lowering knows of frame objects and pieces it learns at the
definition, and a use that comes before takes the temporary for a scalar.
-/

namespace Retarget

/-- Registers that are read, also as the bases of addresses, are those of parameters or written by
some instruction. -/
def Machine.Function.ReadsDefined (f : Machine.Function) : Prop :=
  f.All fun i => ∀ id ∈ i.readIds, id ∈ f.paramIds ∨ ∃ j ∈ f.instructions, id ∈ j.writtenIds

instance (f : Machine.Function) : Decidable f.ReadsDefined :=
  inferInstanceAs (Decidable (∀ i ∈ f.instructions, ∀ id ∈ i.readIds, _))

namespace Ir

theorem Instruction.hasScalarResult_of_loadsPieces {t : Target} {i : Instruction}
    (h : i.loadsPieces t) : i.hasScalarResult = false := by
  cases i with
  | load result ptr ty =>
    rw [loadsPieces, Bool.and_eq_true] at h
    simp [hasScalarResult, h.1]
  | _ => cases h

end Ir

namespace Lowering

open Machine

variable {D L : Ir.TempId → Prop} {c : Scope} {s : State}

/-! ## Blocks -/

/-- What an instruction uses is resolved behind the instructions `done`. -/
def Resolved (D L : Ir.TempId → Prop) (done : List Ir.Instruction) (i : Ir.Instruction) : Prop :=
  ∀ use ∈ i.uses, ∀ t, use.value.tempId? = some t →
    D t ∨ (∃ j ∈ done, j.result? = some t ∧ j.hasScalarResult = false) ∧ (L t → use.isWhole)

theorem Resolved.resolves {done : List Ir.Instruction} {i : Ir.Instruction}
    (h : Resolved D L done i) (hdone : ∀ j ∈ done, s.Settles j) :
    ∀ use ∈ i.uses, s.Resolves D L use := by
  intro use huse t ht
  refine (h use huse t ht).imp_right fun hnotes => ⟨?_, hnotes.2⟩
  obtain ⟨j, hj, hresult, hscalar⟩ := hnotes.1
  simpa [hscalar] using hdone j hj t hresult

theorem backs_closeBlock (hs : s.Backed D L) (name : String) :
    Backs D L s (Scope.closeBlock name) fun s' _ => s'.code = #[] := by
  have hemitted : State.emitted { s with
      function := { s.function with blocks := s.function.blocks ++ [⟨name, s.code.toList⟩] }
      code := #[] } = s.emitted := by
    simp [State.emitted, Machine.Function.instructions]
  have hle : s.Extends { s with
      function := { s.function with blocks := s.function.blocks ++ [⟨name, s.code.toList⟩] }
      code := #[] } :=
    ⟨hemitted ▸ List.Subset.refl _, fun _ _ h => h, List.Subset.refl _, List.Subset.refl _,
      List.Subset.refl _⟩
  exact .modify hle (hs.extend hle (fun i hi => .inl (hemitted ▸ hi)) rfl rfl) rfl

section Blocks

variable {f : Ir.Function}
  (hresolved : ∀ done i rest, f.instructions = done ++ i :: rest → Resolved D L done i)
  (hL : ∀ i ∈ f.instructions, ∀ t, i.result? = some t → i.loadsPieces c.target → L t)
include hresolved hL

theorem backs_forM_lowerInstruction (hs : s.Backed D L) (next : Option String)
    {done todo rest : List Ir.Instruction} (hf : f.instructions = done ++ todo ++ rest)
    (hdone : ∀ j ∈ done, s.Settles j) :
    Backs D L s (todo.forM (c.lowerInstruction next)) fun s' _ =>
      ∀ j ∈ done ++ todo, s'.Settles j := by
  induction todo generalizing s done with
  | nil => exact .pure hs (by simpa using hdone)
  | cons i todo ih =>
    rw [List.forM]
    have huses := (hresolved done i (todo ++ rest) (by simpa using hf)).resolves hdone
    have hi : i ∈ f.instructions := by simp [hf]
    refine (backs_lowerInstruction hs next huses (hL i hi)).bind fun _ s₁ hle₁ hs₁ hsettles => ?_
    have hdone₁ : ∀ j ∈ done ++ [i], s₁.Settles j := by
      refine List.forall_mem_append.mpr ⟨fun j hj => hle₁.settles (hdone j hj), ?_⟩
      simpa using hsettles
    refine (ih hs₁ (by simpa using hf) hdone₁).mono fun s' _ _ h => ?_
    simpa using h

theorem backs_lowerBlocks (hs : s.Backed D L) {done : List Ir.Instruction} {blocks : List Ir.Block}
    (hf : f.instructions = done ++ blocks.flatMap (·.instructions))
    (hdone : ∀ j ∈ done, s.Settles j) (hcode : blocks = [] → s.code = #[]) :
    Backs D L s (c.lowerBlocks blocks) fun s' _ =>
      (∀ j ∈ f.instructions, s'.Settles j) ∧ s'.code = #[] := by
  induction blocks generalizing s done with
  | nil => exact .pure hs ⟨by simpa [hf] using hdone, hcode rfl⟩
  | cons b rest ih =>
    have hf' : f.instructions = done ++ b.instructions ++ rest.flatMap (·.instructions) := by
      simpa using hf
    refine (backs_forM_lowerInstruction hresolved hL hs _ hf' hdone).bind
      fun _ s₁ _ hs₁ hdone₁ => ?_
    refine (backs_closeBlock hs₁ b.name).bind fun _ s₂ hle₂ hs₂ hcode₂ => ?_
    exact ih hs₂ hf' (fun j hj => hle₂.settles (hdone₁ j hj)) fun _ => hcode₂

end Blocks

/-! ## Parameters -/

theorem backs_setParameter (hs : s.Backed D L) (name : String) {id : RegId}
    (hid : id ∈ s.function.paramIds) (ty : LowType) :
    Backs D L s (Scope.setParameter name id ty) fun _ _ => True := by
  have hle : s.Extends { s with params := (name, id, ty) :: s.params } :=
    ⟨List.Subset.refl _, fun _ _ h => h, List.Subset.refl _, List.Subset.refl _,
      List.Subset.refl _⟩
  exact .modify hle ⟨fun i hi id hid => hle.provides (hs.reads i hi id hid),
    List.forall_mem_cons.mpr ⟨hid, hs.params⟩, hs.homes, hs.pieces⟩ trivial

theorem backs_lowerParameter (hs : s.Backed D L) (p : Ir.Parameter) :
    Backs D L s (c.lowerParameter p) fun _ _ => True := by
  unfold Scope.lowerParameter
  split
  · exact (backs_freshParameter hs _ _ _).bind fun id s₁ _ hs₁ hid =>
      backs_setParameter hs₁ p.name hid _
  · split
    · refine (backs_fitsRegisters hs p.ty).bind fun fits s₁ _ hs₁ _ => ?_
      split
      · exact .unsupported_bind _
      · refine (backs_size hs₁ p.ty).bind fun bytes s₂ _ hs₂ _ => ?_
        refine (backs_freshSlot hs₂ bytes).bind fun slot s₃ _ hs₃ _ => ?_
        refine (backs_piecesOf hs₃ p.ty).bind fun pieces s₄ _ hs₄ _ => ?_
        refine (Upholds.forM hs₄ fun piece _ s' _ hs' => ?_).bind fun _ s₅ _ hs₅ _ => ?_
        · refine (backs_freshParameter hs' _ _ _).bind fun id s'' _ hs'' hid => backs_emit hs'' ?_
          have hplace : s''.Covers D (.stack slot 0 c.target.pointerType) :=
            State.covers_of_unallocated? rfl
          simpa using ⟨State.covers_piece hplace piece, State.covers_parameter hid piece.ty⟩
        · refine (backs_setHome hs₅ _ _ ?_ ?_).mono fun _ _ _ _ => trivial
          · intro parts heq
            cases heq
          · intro t parts heq
            cases heq
    · exact (backs_freshParameter hs _ _ _).bind fun id s₁ _ hs₁ hid =>
        backs_setParameter hs₁ p.name hid _

/-! ## Functions -/

theorem State.backed_start (f : Ir.Function) : (State.start f).Backed D L :=
  ⟨by simp [State.start, State.emitted, Machine.Function.instructions], by simp [State.start],
    by simp [State.start], by simp [State.start]⟩

/-- A register that is awaited belongs to a temporary that is settled in the end. -/
theorem State.Provides.writes {f : Ir.Function} {id : RegId}
    (h : s.Provides f.IsScalar id) (hsettled : ∀ j ∈ f.instructions, s.Settles j) :
    id ∈ s.function.paramIds ∨ s.Writes id := by
  cases h with
  | parameter h => exact .inl h
  | written h => exact .inr h
  | awaited ht h =>
    obtain ⟨j, hj, hresult, hscalar⟩ := ht
    have hdefines := hsettled j hj _ hresult
    rw [if_pos hscalar] at hdefines
    obtain ⟨id', hid', hwrites⟩ := hdefines
    cases h.symm.trans hid'
    exact .inr hwrites

/-- What a function in single-assignment form uses is resolved, if it is laid out in order. -/
theorem resolved_of_laidOut {t : Target} {f : Ir.Function} (hf : f.SingleAssignment)
    (hlayout : f.LaidOut t) {done rest : List Ir.Instruction} {i : Ir.Instruction}
    (hi : f.instructions = done ++ i :: rest) :
    Resolved f.IsScalar (f.IsInPieces t) done i := by
  intro use huse id hid
  have hlt : done.length < f.instructions.length := by simp [hi]
  have hq : f.instructions[(⟨done.length, hlt⟩ : f.Point)] = i := by simp [hi]
  have hmem : id ∈ f.instructions[(⟨done.length, hlt⟩ : f.Point)].temps :=
    List.mem_filterMap.mpr ⟨use, hq.symm ▸ huse, hid⟩
  obtain ⟨p, hp, -⟩ := hf.dominated _ id hmem
  cases hscalar : f.instructions[p].hasScalarResult with
  | true => exact .inl ⟨_, List.getElem_mem _, hp, hscalar⟩
  | false =>
    -- Every definition that is no scalar stands in front of the use.
    have hbefore : ∀ p : f.Point, f.instructions[p].result? = some id →
        f.instructions[p].hasScalarResult = false → p < (⟨done.length, hlt⟩ : f.Point) ∧
          (f.instructions[p].loadsPieces t → use.isWhole) := fun p hp hscalar =>
      hlayout p _ use (hq.symm ▸ huse) (Option.isSome_of_eq_some hp) (hp.trans hid.symm) hscalar
    refine .inr ⟨⟨f.instructions[p], ?_, hp, hscalar⟩, ?_⟩
    · have hlt : p.val < done.length := (hbefore p hp hscalar).1
      have hget : f.instructions[p] = done[p.val] := by simp [hi, hlt]
      exact hget ▸ List.getElem_mem hlt
    · rintro ⟨j, hj, hresult, hpieces⟩
      obtain ⟨k, hk, rfl⟩ := List.getElem_of_mem hj
      have hscalar := Ir.Instruction.hasScalarResult_of_loadsPieces hpieces
      exact (hbefore ⟨k, hk⟩ hresult hscalar).2 hpieces

/-- **A lowered function writes every register that it reads**, where the definitions of temporaries
dominate their uses and those of locals and aggregates stand in front of them. -/
theorem readsDefined_lowerFunction {t : Target} {f : Ir.Function} {g : Machine.Function}
    (hf : f.SingleAssignment) (hlayout : f.LaidOut t) (h : lowerFunction t f = .ok g) :
    g.ReadsDefined := by
  obtain ⟨⟨_, s'⟩, hrun, h⟩ := bind_eq_ok.mp h
  cases h
  obtain ⟨_, s₀, hparams, hblocks⟩ := run_bind_eq_ok.mp hrun
  by_cases hempty : f.blocks = []
  · -- Without blocks there is no code, since that of the parameters is dropped.
    have hnone := blocks_of_parameterSteps (parameterSteps hparams)
    rw [hempty] at hblocks
    cases hblocks
    simp [Machine.Function.ReadsDefined, Machine.Function.All, Machine.Function.instructions, hnone]
  · have hparameters : Backs f.IsScalar (f.IsInPieces t) (.start f)
        (f.parameters.forM (Scope.lowerParameter ⟨t, f.name⟩)) fun _ _ => True :=
      .forM (State.backed_start f) fun p _ _ _ hs => backs_lowerParameter hs p
    obtain ⟨-, hs₀, -⟩ := hparameters.ok _ _ hparams
    have hsplit : f.instructions = [] ++ f.blocks.flatMap (·.instructions) := rfl
    have hlower := backs_lowerBlocks (c := ⟨t, f.name⟩)
      (fun _ _ _ hi => resolved_of_laidOut hf hlayout hi)
      (fun i hi id hresult hpieces => ⟨i, hi, hresult, hpieces⟩) hs₀ hsplit (by simp)
      fun hnil => absurd hnil hempty
    obtain ⟨-, hend, hsettled, hcode⟩ := hlower.ok _ _ hblocks
    have hemitted : s'.emitted = s'.function.instructions := by simp [State.emitted, hcode]
    intro i hi id hid
    refine ((hend.reads i (hemitted ▸ hi) id hid).writes hsettled).imp_right ?_
    rintro ⟨j, hj, hid⟩
    exact ⟨j, hemitted ▸ hj, hid⟩

/-- A scalar is defined behind the block that returns it, and a local in front of its uses. -/
def detour : Ir.Function where
  name := "f"
  returnType := .i32
  parameters := [⟨"p", .i32, false⟩]
  blocks := [
    { name := "entry"
      instructions := [.stackAlloc 0 "x" .i32, .jump "compute"] },
    { name := "exit"
      instructions := [.store (.temp 1 .i32) (.temp 0 (.ptr .i32)), .ret (some (.temp 1 .i32))] },
    { name := "compute"
      instructions := [.binary 1 .add (.param "p" .i32) (.constant 1 .i32) .i32, .jump "exit"] }]

theorem singleAssignment_detour : detour.SingleAssignment :=
  .of_closed (fun p => if p = 0 then [0] else if p = 4 then [0, 1, 4] else List.range 6)
    (by decide) (by decide) (by decide)

theorem readsDefined_detour : ∃ g, lowerFunction Arch.aarch64.target detour = .ok g ∧
    g.instructions.length = 5 ∧ g.ReadsDefined := by
  have hrun : (lowerFunction Arch.aarch64.target detour).map (·.instructions.length) = .ok 5 := by
    decide
  obtain ⟨g, hg, hlength⟩ := map_eq_ok.mp hrun
  exact ⟨g, hg, hlength, readsDefined_lowerFunction singleAssignment_detour (by decide) hg⟩

/-- A local is used in front of the block that allocates it. -/
def stray : Ir.Function where
  name := "f"
  returnType := .void
  parameters := [⟨"p", .i32, false⟩]
  blocks := [
    { name := "entry", instructions := [.jump "def"] },
    { name := "use"
      instructions := [.store (.param "p" .i32) (.temp 0 (.ptr .i32)), .ret none] },
    { name := "def", instructions := [.stackAlloc 0 "x" .i32, .jump "use"] }]

/-- An aggregate is loaded into registers and then taken for an address. -/
def scattered : Ir.Function where
  name := "f"
  returnType := .i32
  parameters := [⟨"p", .ptr (.struct "pair" [.i32, .i32]), false⟩]
  blocks := [
    { name := "entry"
      instructions := [
        .load 0 (.param "p" (.ptr (.struct "pair" [.i32, .i32]))) (.struct "pair" [.i32, .i32]),
        .elementPtr 1 (.temp 0 (.struct "pair" [.i32, .i32])) (.constant 1 .i32) .i32,
        .load 2 (.temp 1 (.ptr .i32)) .i32, .ret (some (.temp 2 .i32))] }]

/-- **Out of order, a register may be read that no instruction writes**: the base of the store in
`stray` and the first source of the address in `scattered`. -/
theorem not_readsDefined_stray :
    (stray.SingleAssignment ∧
      ∀ a : Arch, ∃ g, lowerFunction a.target stray = .ok g ∧ ¬ g.ReadsDefined) ∧
    scattered.SingleAssignment ∧
      ∀ a : Arch, ∃ g, lowerFunction a.target scattered = .ok g ∧ ¬ g.ReadsDefined := by
  have hstray : stray.SingleAssignment :=
    .of_closed (fun p => if p = 3 then [0, 3] else List.range 5)
      (by decide) (by decide) (by decide)
  have hscattered : scattered.SingleAssignment :=
    .of_closed (fun p => List.range (p + 1))
      (by decide) (by decide) (by decide)
  have hrun : ∀ f ∈ [stray, scattered], ∀ a : Arch,
      (lowerFunction a.target f).map (fun g => decide g.ReadsDefined) = .ok false := by
    intro f hf a
    rcases List.mem_pair.mp hf with rfl | rfl <;> cases a <;> decide +kernel
  have hreads : ∀ f ∈ [stray, scattered], ∀ a : Arch,
      ∃ g, lowerFunction a.target f = .ok g ∧ ¬ g.ReadsDefined := by
    intro f hf a
    obtain ⟨g, hg, hreads⟩ := map_eq_ok.mp (hrun f hf a)
    exact ⟨g, hg, of_decide_eq_false hreads⟩
  exact ⟨⟨hstray, hreads stray (by simp)⟩, hscattered, hreads scattered (by simp)⟩

end Lowering

end Retarget
