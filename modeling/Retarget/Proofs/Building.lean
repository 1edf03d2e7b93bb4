import Mathlib.Data.List.Nodup
import Mathlib.Tactic.SplitIfs
import Retarget.Ir.Builder

/-!
# What building keeps

Whatever calls have been made of a builder, the function under construction has blocks of different
names and temporaries that are defined once, all of them below the next temporary, and the current
block is one of its blocks (`Builder.Sound`).

A call that is refused changes nothing but the next temporary (`Builder.Counts`).  One that builds
puts one instruction behind the current block (`Builder.Appends`), and every other one is listed in
`Builder.Changes`.  `Call.outcome` says this of each call, whatever the builder; soundness then
follows the calls (`Builder.sound_built`).
-/

namespace Retarget.Ir

/-- The temporaries that the function defines, in order. -/
def Function.results (f : Function) : List TempId :=
  f.blocks.flatMap fun b => b.instructions.filterMap (·.result?)

theorem Function.isSome_block?_iff (f : Function) {name : String} :
    (f.block? name).isSome ↔ name ∈ f.blocks.map (·.name) := by
  rw [Function.block?, List.find?_isSome, List.mem_map]
  exact exists_congr fun b => and_congr_right fun _ => beq_iff_eq

namespace Builder

/-! ## Calls -/

/-- What can be asked of a builder. -/
inductive Call where
  | newTemp
  | startFunction (name : String) (returnType : Ty)
  | addParameter (name : String) (ty : Ty)
  | addReturnBuffer (name : String) (ty : Ty)
  | createBlock (name : String)
  | setBlock (name : String)
  | binary (op : BinaryOp) (lhs rhs : Value)
  | unary (op : UnaryOp) (operand : Value) (ty : Ty)
  | compare (relation : Relation) (lhs rhs : Value)
  | stackAlloc (name : String) (ty : Ty)
  | load (ptr : Value) (ty : Ty)
  | store (value ptr : Value)
  | elementPtr (source index : Value) (ty : Ty)
  | memCopy (dest source : Value) (bytes : UInt64)
  | call (callee : String) (args : List Value) (ty : Ty)
  | callWithBuffer (callee : String) (args : List Value) (position : UInt64)
  | jump (target : String)
  | branch (condition : Value) (trueTarget : String) (falseTarget : Option String)
  | ret (value : Option Value)
  | finish

namespace Call

/-- The step that the call takes; what it answers besides a refusal is no matter here. -/
def step : Call → Step Unit
  | newTemp => discard Builder.newTemp
  | startFunction name returnType => Builder.startFunction name returnType
  | addParameter name ty => discard (Builder.addParameter name ty)
  | addReturnBuffer name ty => discard (Builder.addReturnBuffer name ty)
  | createBlock name => Builder.createBlock name
  | setBlock name => Builder.setBlock name
  | binary op lhs rhs => discard (Builder.binary op lhs rhs)
  | unary op operand ty => discard (Builder.unary op operand ty)
  | compare relation lhs rhs => discard (Builder.compare relation lhs rhs)
  | stackAlloc name ty => discard (Builder.stackAlloc name ty)
  | load ptr ty => discard (Builder.load ptr ty)
  | store value ptr => Builder.store value ptr
  | elementPtr source index ty => discard (Builder.elementPtr source index ty)
  | memCopy dest source bytes => Builder.memCopy dest source bytes
  | call callee args ty => discard (Builder.call callee args ty)
  | callWithBuffer callee args position => Builder.callWithBuffer callee args position
  | jump target => Builder.jump target
  | branch condition trueTarget falseTarget => Builder.branch condition trueTarget falseTarget
  | ret value => Builder.ret value
  | finish => discard Builder.finish

/-- Whether the call asks for an instruction. -/
def builds : Call → Bool
  | newTemp | startFunction .. | addParameter .. | addReturnBuffer .. | createBlock ..
  | setBlock .. | finish => false
  | _ => true

/-- What the call answers, and the builder behind it. -/
def perform (c : Call) (b : Builder) : Except Refusal Unit × Builder := b.run c.step

end Call

/-- The builder behind some calls, refused or not. -/
def built (calls : List Call) : Builder := calls.foldl (fun b c => (c.perform b).2) {}

/-! ## What a call may do -/

/-- At most the next temporary is another one. -/
inductive Counts (b : Builder) : Builder → Prop
  | same : b.Counts b
  | next (hroom : b.nextTemp.toNat + 1 < Word.modulus 32) :
    b.Counts { b with nextTemp := b.nextTemp + 1 }

/-- One more instruction stands at the end of the current block, and nothing else is new; if it
defines a temporary, this was the next one. -/
structure Appends (b : Builder) (i : Instruction) (b' : Builder) : Prop where
  function : ∃ f before block after, b.function = some f ∧ b.block = some block.name ∧
    f.blocks = before ++ block :: after ∧
    b'.function = some { f with blocks := before ++
      { block with instructions := block.instructions ++ [i] } :: after }
  block : b'.block = b.block
  result : i.result? = none ∧ b'.nextTemp = b.nextTemp ∨
    i.result? = some b.nextTemp ∧ b.nextTemp.toNat + 1 < Word.modulus 32 ∧
      b'.nextTemp = b.nextTemp + 1

/-- What calls do that ask for no instruction. -/
inductive Changes (b : Builder) : Builder → Prop
  | counts {b' : Builder} (h : b.Counts b') : b.Changes b'
  | start (name : String) (returnType : Ty) :
    b.Changes { function := some { name := name, returnType := returnType } }
  | parameter {f : Function} (h : b.function = some f) (p : Parameter) :
    b.Changes { b with function := some { f with parameters := f.parameters ++ [p] } }
  | newBlock {f : Function} {name : String} (h : b.function = some f) (hnew : f.block? name = none) :
    b.Changes { b with function := some { f with blocks := f.blocks ++ [{ name := name }] }
                       block := some name }
  | oldBlock {f : Function} {name : String} (h : b.function = some f)
    (hold : (f.block? name).isSome) : b.Changes { b with block := some name }
  | finish : b.Changes { b with function := none, block := none }

/-- How a step turns out: it is refused, or it does what `Q` says. -/
inductive Outcome (b : Builder) (Q : Builder → Prop) {α : Type} : Except Refusal α × Builder → Prop
  | refused {b' : Builder} (refusal : Refusal) (h : b.Counts b') : Outcome b Q (.error refusal, b')
  | done {b' : Builder} (answer : α) (h : Q b') : Outcome b Q (.ok answer, b')

variable {α β : Type} {b b' : Builder} {Q : Builder → Prop}

/-! ## Steps -/

theorem run_bind (b : Builder) (m : Step α) (k : α → Step β) :
    b.run (m >>= k) = match b.run m with
      | (.ok a, b') => b'.run (k a)
      | (.error refusal, b') => (.error refusal, b') := by
  simp only [run, ExceptT.run, bind, ExceptT.bind, StateT.run, ExceptT.mk, StateT.bind]
  obtain ⟨_ | _, _⟩ := m b <;> rfl

theorem run_map (b : Builder) (g : α → β) (m : Step α) :
    b.run (g <$> m) = ((b.run m).1.map g, (b.run m).2) := by
  rw [map_eq_pure_bind, run_bind]
  obtain ⟨_ | _, _⟩ := b.run m <;> rfl

theorem run_currentFunction (b : Builder) : b.run currentFunction = match b.function with
    | some f => (.ok f, b)
    | none => (.error .noFunction, b) := by
  obtain ⟨_ | _, _, _⟩ := b <;> rfl

theorem Outcome.map {m : Step α} (h : Outcome b Q (b.run m)) (g : α → β) :
    Outcome b Q (b.run (g <$> m)) := by
  rw [run_map]
  generalize b.run m = r at h
  cases h with
  | refused refusal h => exact .refused refusal h
  | done answer h => exact .done _ h

theorem Outcome.ite {p : Prop} [Decidable p] {m m' : Step α} (h : p → Outcome b Q (b.run m))
    (h' : ¬p → Outcome b Q (b.run m')) : Outcome b Q (b.run (if p then m else m')) := by
  split_ifs with hp
  · exact h hp
  · exact h' hp

theorem Outcome.withFunction {k : Function → Step α}
    (h : ∀ f, b.function = some f → Outcome b Q (b.run (k f))) :
    Outcome b Q (b.run (currentFunction >>= k)) := by
  rw [run_bind, run_currentFunction]
  cases hf : b.function with
  | none => exact .refused _ .same
  | some f => exact h f hf

theorem run_get_bind (b : Builder) (k : Builder → Step α) : b.run (get >>= k) = b.run (k b) := by
  rw [run_bind]
  rfl

theorem run_newTemp (b : Builder) : b.run newTemp =
    if b.nextTemp.toNat + 1 < Word.modulus 32
    then (.ok b.nextTemp, { b with nextTemp := b.nextTemp + 1 })
    else (.error .tempsExhausted, b) := by
  rw [newTemp, run_get_bind]
  dsimp only
  split <;> rfl

theorem exists_pushTo {blocks : List Block} {name : String} (i : Instruction)
    (h : (blocks.find? (·.name == name)).isSome) : ∃ before block after,
      blocks = before ++ block :: after ∧ block.name = name ∧
        pushTo name i blocks = before ++ block.push i :: after := by
  induction blocks with
  | nil => cases h
  | cons block blocks ih =>
    rw [pushTo]
    split
    · next hname => exact ⟨[], block, blocks, rfl, eq_of_beq hname, rfl⟩
    · next hname =>
      rw [List.find?_cons_of_neg (by exact hname)] at h
      obtain ⟨before, found, after, rfl, hfound, hpush⟩ := ih h
      exact ⟨block :: before, found, after, rfl, hfound, congrArg (block :: ·) hpush⟩

theorem run_add (b : Builder) (i : Instruction) :
    (∃ refusal, b.run (add i) = (.error refusal, b)) ∨
    ∃ f name, b.function = some f ∧ b.block = some name ∧ (f.block? name).isSome ∧
      b.run (add i) =
        (.ok (), { b with function := some { f with blocks := pushTo name i f.blocks } }) := by
  obtain ⟨function, current, next⟩ := b
  cases function with
  | none => exact .inl ⟨_, rfl⟩
  | some f =>
    cases current with
    | none => exact .inl ⟨_, rfl⟩
    | some name =>
      have hrun : run ⟨some f, some name, next⟩ (add i) = run ⟨some f, some name, next⟩ (do
          if (f.block? name).isNone then throw .blockVanished
          modify fun b => { b with function := some { f with blocks := pushTo name i f.blocks } }) :=
        rfl
      rw [hrun]
      cases hblock : f.block? name with
      | none => exact .inl ⟨.blockVanished, rfl⟩
      | some block => exact .inr ⟨f, name, rfl, rfl, by rw [hblock]; rfl, rfl⟩

theorem outcome_add {i : Instruction} (hi : i.result? = none) (b : Builder) :
    Outcome b (fun b' => ∃ i, b.Appends i b') (b.run (add i)) := by
  rcases run_add b i with ⟨refusal, h⟩ | ⟨f, name, hf, hname, hblock, h⟩
  · rw [h]
    exact .refused _ .same
  · obtain ⟨before, block, after, hblocks, rfl, hpush⟩ := exists_pushTo i hblock
    rw [h]
    exact .done _ ⟨i, ⟨⟨f, before, block, after, hf, hname, hblocks, by rw [hpush]; rfl⟩, rfl,
      .inl ⟨hi, rfl⟩⟩⟩

theorem outcome_define {ty : Ty} {instruction : TempId → Instruction}
    (hi : ∀ id, (instruction id).result? = some id) (b : Builder) :
    Outcome b (fun b' => ∃ i, b.Appends i b') (b.run (define ty instruction)) := by
  rw [define, run_bind, run_newTemp]
  split_ifs with hroom
  · dsimp only
    rw [run_bind]
    rcases run_add { b with nextTemp := b.nextTemp + 1 } (instruction b.nextTemp) with
      ⟨refusal, h⟩ | ⟨f, name, hf, hname, hblock, h⟩
    · rw [h]
      exact .refused _ (.next hroom)
    · obtain ⟨before, block, after, hblocks, rfl, hpush⟩ := exists_pushTo _ hblock
      rw [h]
      exact .done _ ⟨_, ⟨⟨f, before, block, after, hf, hname, hblocks, by rw [hpush]; rfl⟩, rfl,
        .inr ⟨hi _, hroom, rfl⟩⟩⟩
  · exact .refused _ .same

/-- **How a call turns out**: refused, it changes at most the next temporary; done, it appends one
instruction if it asks for one. -/
theorem Call.outcome (c : Call) (b : Builder) :
    Outcome b (fun b' => if c.builds then ∃ i, b.Appends i b' else b.Changes b') (c.perform b) := by
  cases c with
  | newTemp =>
    refine Outcome.map (Q := b.Changes) ?_ _
    rw [run_newTemp]
    split_ifs with hroom
    · exact .done _ (.counts (.next hroom))
    · exact .refused _ .same
  | startFunction name returnType => exact .done _ (.start name returnType)
  | addParameter name ty =>
    refine Outcome.map (Q := b.Changes) (Outcome.withFunction fun f hf => ?_) _
    exact .done _ (.parameter hf ⟨name, ty, false⟩)
  | addReturnBuffer name ty =>
    refine Outcome.map (Q := b.Changes) (Outcome.withFunction fun f hf => ?_) _
    exact .done _ (.parameter hf ⟨name, .ptr ty, true⟩)
  | createBlock name =>
    refine Outcome.withFunction fun f hf => ?_
    cases hblock : f.block? name with
    | none => exact .done _ (.newBlock hf hblock)
    | some block => exact .refused (.blockExists name f.name) .same
  | setBlock name =>
    refine Outcome.withFunction fun f hf => ?_
    cases hblock : f.block? name with
    | none => exact .refused (.blockMissing name) .same
    | some block => exact .done _ (.oldBlock hf (by rw [hblock]; rfl))
  | store | memCopy | jump | branch | ret => exact outcome_add rfl b
  | callWithBuffer callee args position =>
    exact .ite (fun _ => .refused (.bufferOutOfRange position) .same) fun _ => outcome_add rfl b
  | call callee args ty =>
    refine Outcome.map (.ite (fun _ => ?_) fun _ => ?_) _
    · exact (outcome_add rfl b).map fun _ => none
    · exact (outcome_define (fun _ => rfl) b).map some
  | binary | unary | compare | stackAlloc | load | elementPtr =>
    exact (outcome_define (fun _ => rfl) b).map _
  | finish => exact .done _ .finish

/-! ## Soundness -/

/-- What holds of a builder at any time. -/
structure Sound (b : Builder) : Prop where
  names : ∀ f ∈ b.function, (f.blocks.map (·.name)).Nodup
  results : ∀ f ∈ b.function, f.results.Nodup
  below : ∀ f ∈ b.function, ∀ id ∈ f.results, id < b.nextTemp
  current : ∀ name ∈ b.block, ∃ f ∈ b.function, name ∈ f.blocks.map (·.name)

theorem lt_next (hroom : b.nextTemp.toNat + 1 < Word.modulus 32) : b.nextTemp < b.nextTemp + 1 := by
  have hroom : b.nextTemp.toNat + 1 < 2 ^ 32 := hroom
  rw [UInt32.lt_iff_toNat_lt, UInt32.toNat_add, UInt32.toNat_one, Nat.mod_eq_of_lt hroom]
  exact Nat.lt_succ_self _

theorem Sound.counts (h : b.Sound) (hb : b.Counts b') : b'.Sound := by
  cases hb with
  | same => exact h
  | next hroom =>
    exact ⟨h.names, h.results,
      fun f hf id hid => UInt32.lt_trans (h.below f hf id hid) (lt_next hroom), h.current⟩

theorem perm_results {f : Function} {before after : List Block} {block : Block}
    (hf : f.blocks = before ++ block :: after) (i : Instruction) :
    List.Perm (Function.results { f with blocks := before ++
      { block with instructions := block.instructions ++ [i] } :: after })
      (i.result?.toList ++ f.results) := by
  have hlast : ([i] : List Instruction).filterMap (·.result?) = i.result?.toList := by
    cases h : i.result? <;> simp [h]
  simp only [Function.results, hf, List.flatMap_append, List.flatMap_cons, List.filterMap_append,
    hlast]
  generalize before.flatMap _ = xs, after.flatMap _ = ys, block.instructions.filterMap _ = zs
  simpa only [List.append_assoc] using List.perm_append_comm_assoc (xs ++ zs) i.result?.toList ys

theorem Sound.appends {i : Instruction} (h : b.Sound) (hb : b.Appends i b') : b'.Sound := by
  obtain ⟨⟨f, before, block, after, hf, hname, hblocks, hf'⟩, hblock, hresult⟩ := hb
  have hperm := perm_results hblocks i
  have hnames : (before ++ { block with instructions := block.instructions ++ [i] } :: after).map
      (·.name) = f.blocks.map (·.name) := by
    rw [hblocks, List.map_append, List.map_append]
    rfl
  have hfresh : b.nextTemp ∉ f.results := fun hmem => UInt32.lt_irrefl _ (h.below f hf _ hmem)
  refine ⟨fun g hg => ?_, fun g hg => ?_, fun g hg id hid => ?_, fun name hcurrent => ?_⟩
  · cases hf'.symm.trans hg
    exact hnames ▸ h.names f hf
  · cases hf'.symm.trans hg
    rw [hperm.nodup_iff]
    rcases hresult with ⟨hnone, -⟩ | ⟨hsome, -, -⟩
    · rw [hnone]
      exact h.results f hf
    · rw [hsome]
      exact List.nodup_cons.mpr ⟨hfresh, h.results f hf⟩
  · cases hf'.symm.trans hg
    rw [hperm.mem_iff, List.mem_append] at hid
    rcases hresult with ⟨hnone, hnext⟩ | ⟨hsome, hroom, hnext⟩
    · rw [hnone] at hid
      exact hnext ▸ h.below f hf id (hid.resolve_left List.not_mem_nil)
    · rw [hsome, Option.toList_some, List.mem_singleton] at hid
      rw [hnext]
      rcases hid with rfl | hid
      · exact lt_next hroom
      · exact UInt32.lt_trans (h.below f hf id hid) (lt_next hroom)
  · obtain ⟨g, hg, hmem⟩ := h.current name (hblock ▸ hcurrent)
    cases hf.symm.trans hg
    exact ⟨_, hf', hnames ▸ hmem⟩

theorem Sound.changes (h : b.Sound) (hb : b.Changes b') : b'.Sound := by
  cases hb with
  | counts hb => exact h.counts hb
  | start name returnType =>
    refine ⟨?_, ?_, ?_, nofun⟩ <;> rintro _ ⟨⟩
    · exact List.nodup_nil
    · exact List.nodup_nil
    · nofun
  | @parameter f hf p =>
    refine ⟨?_, ?_, ?_, fun name hname => ?_⟩
    · rintro _ ⟨⟩
      exact h.names f hf
    · rintro _ ⟨⟩
      exact h.results f hf
    · rintro _ ⟨⟩
      exact h.below f hf
    · obtain ⟨g, hg, hmem⟩ := h.current name hname
      cases hf.symm.trans hg
      exact ⟨_, rfl, hmem⟩
  | @newBlock f name hf hnew =>
    have hnew : name ∉ f.blocks.map (·.name) := by
      rw [← f.isSome_block?_iff, hnew]
      exact Bool.false_ne_true
    have hresults : Function.results { f with blocks := f.blocks ++ [{ name := name }] } =
        f.results := by
      simp [Function.results]
    refine ⟨?_, ?_, ?_, ?_⟩ <;> rintro _ ⟨⟩
    · rw [List.map_append]
      exact List.nodup_append.mpr ⟨h.names f hf, by simp, by simpa using hnew⟩
    · exact hresults ▸ h.results f hf
    · exact hresults ▸ h.below f hf
    · exact ⟨_, rfl, by simp⟩
  | @oldBlock f name hf hold =>
    refine ⟨h.names, h.results, h.below, ?_⟩
    rintro _ ⟨⟩
    exact ⟨f, hf, f.isSome_block?_iff.mp hold⟩
  | finish => exact ⟨nofun, nofun, nofun, nofun⟩

theorem Sound.perform (h : b.Sound) (c : Call) : (c.perform b).2.Sound := by
  have houtcome := c.outcome b
  generalize c.perform b = r at houtcome ⊢
  cases houtcome with
  | refused _ hb => exact h.counts hb
  | done _ hb =>
    split at hb
    · obtain ⟨i, hb⟩ := hb
      exact h.appends hb
    · exact h.changes hb

theorem sound_empty : ({} : Builder).Sound := by
  refine ⟨?_, ?_, ?_, ?_⟩ <;> rintro _ ⟨⟩

theorem Sound.foldl (h : b.Sound) (calls : List Call) :
    (calls.foldl (fun b c => (c.perform b).2) b).Sound := by
  induction calls generalizing b with
  | nil => exact h
  | cons c calls ih => exact ih (h.perform c)

/-- **Whatever calls are made, the builder stays sound**; a call that is refused leaves the function
and the current block as they are, and one that builds appends one instruction to the current block
and leaves the rest. -/
theorem sound_built (calls : List Call) :
    (built calls).Sound ∧ ∀ c : Call, match c.perform (built calls) with
      | (.error _, b) => (built calls).Counts b
      | (.ok _, b) => c.builds → ∃ i, (built calls).Appends i b := by
  refine ⟨sound_empty.foldl calls, fun c => ?_⟩
  have houtcome := c.outcome (built calls)
  generalize c.perform (built calls) = r at houtcome ⊢
  cases houtcome with
  | refused _ hb => exact hb
  | done _ hb =>
    intro hbuilds
    rwa [if_pos hbuilds] at hb

end Builder

end Retarget.Ir
