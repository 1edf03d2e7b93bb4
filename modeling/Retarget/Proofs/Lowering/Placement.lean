import Retarget.Proofs.Convention.Calls
import Retarget.Proofs.Lowering.Values
import Retarget.Proofs.Shape.Lowering

/-!
# Where lowered code stands

The code that an instruction is lowered to stays where it is put while lowering goes on, and so do
the frame slots.  So every block of a lowered function is the code of a state that lowering was in
at its end (`exists_lowered_block`), and the code of each instruction is a part of it
(`exists_lowered_instruction`).
-/

namespace Retarget.Lowering

open Machine

variable {t : Target} {c : Scope} {f : Ir.Function} {g : Machine.Function} {s s' s₁ s₂ : State}
  {i : Ir.Instruction} {todo : List Ir.Instruction} {b : Ir.Block} {rest : List Ir.Block}
  {next : Option String}

/-- Lowering has gone on in the block: the code so far stays, and so do the slots. -/
structure State.Grows (s s' : State) : Prop where
  code : s.code.toList <+: s'.code.toList
  slots : s.slots ⊆ s'.slots
  blocks : s'.function.blocks = s.function.blocks

theorem State.Grows.refl (s : State) : s.Grows s := ⟨List.prefix_rfl, List.Subset.refl _, rfl⟩

theorem State.Grows.trans (h : s.Grows s₁) (h' : s₁.Grows s₂) : s.Grows s₂ :=
  ⟨h.code.trans h'.code, List.Subset.trans h.slots h'.slots, h'.blocks.trans h.blocks⟩

theorem grows_lowerInstruction (hs : Sound t s)
    (h : (c.lowerInstruction next i).run s = .ok ((), s')) (ht : c.target = t) :
    s.Grows s' ∧ Sound t s' := by
  subst ht
  obtain ⟨hs', hslots, -⟩ := (runs_lowerInstruction hs next i).yields.of_eq_ok h
  have hevolves : Evolves (fun _ => True) (fun _ => True) s s' :=
    ((goes_lowerInstruction _ i (fun _ _ => trivial) fun _ _ => trivial).ok _ _ h).1
  obtain ⟨code, hcode, -⟩ := exists_code_of_evolves hevolves
  exact ⟨⟨⟨code, hcode.symm⟩, hslots, (function_of_evolves hevolves).2.2⟩, hs'⟩

theorem grows_forM (hs : Sound c.target s)
    (h : (todo.forM (c.lowerInstruction next)).run s = .ok ((), s')) :
    s.Grows s' ∧ Sound c.target s' := by
  induction todo generalizing s with
  | nil =>
    cases h
    exact ⟨.refl _, hs⟩
  | cons i todo ih =>
    rw [List.forM] at h
    obtain ⟨_, s₁, hfirst, h⟩ := run_bind_eq_ok.mp h
    obtain ⟨hgrows, hs₁⟩ := grows_lowerInstruction hs hfirst rfl
    obtain ⟨hgrows', hs'⟩ := ih hs₁ h
    exact ⟨hgrows.trans hgrows', hs'⟩

theorem Sound.framed (hs : Sound t s) (hslots : s.slots ⊆ g.slots) : s.Framed g :=
  fun _ _ hslot => hslots (hs.frameObject? hslot)

theorem sound_start (c : Scope) (f : Ir.Function) : Sound c.target (.start f) :=
  ⟨by simp [State.start], by simp [State.start, Function.All, Function.instructions],
    by simp [State.start], by simp [State.start]⟩

theorem sound_parameters (h : (f.parameters.forM c.lowerParameter).run (.start f) = .ok ((), s)) :
    Sound c.target s := by
  have hruns : Runs c.target (.start f) (f.parameters.forM c.lowerParameter) fun _ _ => True :=
    .forM (R := fun _ _ => True) (sound_start c f) (fun _ _ => trivial) (fun _ _ _ _ _ => trivial)
      fun p _ hs _ => runs_lowerParameter hs p
  exact (hruns.yields.of_eq_ok h).1

/-- Lowering is in sound states only. -/
theorem Reaches.sound (h : Reaches c f todo b rest s) : Sound c.target s := by
  induction h with
  | enter _ hparams => exact sound_parameters hparams
  | step _ hrun ih => exact (grows_lowerInstruction ih hrun rfl).2
  | next _ hrun ih => exact ((runs_closeBlock ih _).yields.of_eq_ok hrun).1

/-! ## Blocks -/

theorem prefix_of_lowerBlocks {blocks : List Ir.Block} (hs : Sound c.target s)
    (h : (c.lowerBlocks blocks).run s = .ok ((), s')) :
    s.function.blocks <+: s'.function.blocks ∧ s.slots ⊆ s'.slots := by
  induction blocks generalizing s with
  | nil =>
    cases h
    exact ⟨List.prefix_rfl, List.Subset.refl _⟩
  | cons b rest ih =>
    rw [Scope.lowerBlocks] at h
    obtain ⟨_, s₁, hbody, h⟩ := run_bind_eq_ok.mp h
    obtain ⟨_, s₂, hclose, h⟩ := run_bind_eq_ok.mp h
    obtain ⟨hgrows, hs₁⟩ := grows_forM hs hbody
    obtain ⟨hs₂, -, -⟩ := (runs_closeBlock hs₁ b.name).yields.of_eq_ok hclose
    obtain ⟨hblocks, hslots⟩ := ih hs₂ h
    cases hclose
    refine ⟨.trans ?_ hblocks, List.Subset.trans hgrows.slots hslots⟩
    rw [← hgrows.blocks]
    exact List.prefix_append _ _

/-- The block at position `k` has the code of the state `s'` that lowering is in at its end, and the
blocks before it are those that are closed when lowering comes to it. -/
structure Closes (c : Scope) (f : Ir.Function) (g : Machine.Function) (k : Nat) (b : Ir.Block)
    (rest : List Ir.Block) (s s' : State) : Prop where
  reaches : Reaches c f b.instructions b rest s
  run : (b.instructions.forM (c.lowerInstruction (rest.head?.map (·.name)))).run s = .ok ((), s')
  block : g.blocks[k]? = some ⟨b.name, s'.code.toList⟩
  slots : s'.slots ⊆ g.slots
  closed : s.function.blocks = g.blocks.take k

theorem exists_closes (h : Reaches c f b.instructions b rest s)
    (hrun : (c.lowerBlocks (b :: rest)).run s = .ok ((), s')) {n : Nat} {b' : Ir.Block}
    (hb' : (b :: rest)[n]? = some b') :
    ∃ s₁ s₂, Closes c f s'.function (s.function.blocks.length + n) b' ((b :: rest).drop (n + 1))
      s₁ s₂ := by
  induction n generalizing b rest s with
  | zero =>
    cases hb'
    rw [Scope.lowerBlocks] at hrun
    obtain ⟨_, s₁, hbody, hrun⟩ := run_bind_eq_ok.mp hrun
    obtain ⟨_, s₂, hclose, hrun⟩ := run_bind_eq_ok.mp hrun
    obtain ⟨hgrows, hs₁⟩ := grows_forM h.sound hbody
    obtain ⟨hs₂, -, -⟩ := (runs_closeBlock hs₁ b'.name).yields.of_eq_ok hclose
    obtain ⟨hblocks, hslots⟩ := prefix_of_lowerBlocks hs₂ hrun
    cases hclose
    obtain ⟨more, hmore⟩ := hblocks
    have hsplit : s'.function.blocks = s.function.blocks ++ (⟨b'.name, s₁.code.toList⟩ :: more) := by
      rw [← hmore, ← hgrows.blocks, List.append_assoc]
      rfl
    refine ⟨s, s₁, h, hbody, ?_, hslots, ?_⟩
    · rw [hsplit, Nat.add_zero, List.getElem?_append_right (Nat.le_refl _), Nat.sub_self]
      rfl
    · rw [hsplit, Nat.add_zero, List.take_left]
  | succ n ih =>
    cases rest with
    | nil => cases hb'
    | cons b₁ rest =>
      rw [Scope.lowerBlocks] at hrun
      obtain ⟨_, s₁, hbody, hrun⟩ := run_bind_eq_ok.mp hrun
      obtain ⟨_, s₂, hclose, hrun⟩ := run_bind_eq_ok.mp hrun
      obtain ⟨hgrows, -⟩ := grows_forM h.sound hbody
      obtain ⟨s₃, s₄, hcloses⟩ := ih ((h.forM hbody).next hclose) hrun hb'
      refine ⟨s₃, s₄, ?_⟩
      have hlength : s₂.function.blocks.length = s.function.blocks.length + 1 := by
        cases hclose
        rw [← hgrows.blocks]
        exact List.length_append
      rwa [hlength, Nat.add_assoc, Nat.add_comm 1 n] at hcloses

/-- **Every block of a lowered function is the code that lowering ends the block with.** -/
theorem exists_lowered_block (h : lowerFunction t f = .ok g) {k : Nat}
    (hb : f.blocks[k]? = some b) :
    ∃ s s', Closes ⟨t, f.name⟩ f g k b (f.blocks.drop (k + 1)) s s' := by
  obtain ⟨⟨_, s'⟩, hrun, h⟩ := bind_eq_ok.mp h
  cases h
  obtain ⟨_, s₀, hparams, hblocks⟩ := run_bind_eq_ok.mp hrun
  have hnone : s₀.function.blocks = [] := blocks_of_parameterSteps (parameterSteps hparams)
  cases hf : f.blocks with
  | nil =>
    rw [hf] at hb
    cases hb
  | cons b₀ rest =>
    rw [hf] at hb hblocks
    obtain ⟨s₁, s₂, hcloses⟩ := exists_closes (.enter hf hparams) hblocks hb
    rw [hnone, List.length_nil, Nat.zero_add] at hcloses
    exact ⟨s₁, s₂, hcloses⟩

theorem names_of_lowerBlocks {blocks : List Ir.Block} (hs : Sound c.target s)
    (h : (c.lowerBlocks blocks).run s = .ok ((), s')) :
    s'.function.blocks.map (·.name) =
      s.function.blocks.map (·.name) ++ blocks.map (·.name) := by
  induction blocks generalizing s with
  | nil =>
    cases h
    simp
  | cons b rest ih =>
    rw [Scope.lowerBlocks] at h
    obtain ⟨_, s₁, hbody, h⟩ := run_bind_eq_ok.mp h
    obtain ⟨_, s₂, hclose, h⟩ := run_bind_eq_ok.mp h
    obtain ⟨hgrows, hs₁⟩ := grows_forM hs hbody
    obtain ⟨hs₂, -, -⟩ := (runs_closeBlock hs₁ b.name).yields.of_eq_ok hclose
    rw [ih hs₂ h]
    cases hclose
    simp [hgrows.blocks]

theorem names_of_lowerFunction (h : lowerFunction t f = .ok g) :
    g.blocks.map (·.name) = f.blocks.map (·.name) := by
  obtain ⟨⟨_, s'⟩, hrun, h⟩ := bind_eq_ok.mp h
  cases h
  obtain ⟨_, s₀, hparams, hblocks⟩ := run_bind_eq_ok.mp hrun
  rw [names_of_lowerBlocks (sound_parameters (c := ⟨t, f.name⟩) hparams) hblocks,
    blocks_of_parameterSteps (parameterSteps hparams)]
  rfl

/-! ## Instructions -/

theorem exists_split_of_forM {before : List Ir.Instruction}
    (h : Reaches c f (before ++ todo) b rest s)
    (hrun : ((before ++ todo).forM (c.lowerInstruction (rest.head?.map (·.name)))).run s =
      .ok ((), s')) :
    ∃ s₁, Reaches c f todo b rest s₁ ∧
      (todo.forM (c.lowerInstruction (rest.head?.map (·.name)))).run s₁ = .ok ((), s') := by
  induction before generalizing s with
  | nil => exact ⟨s, h, hrun⟩
  | cons i before ih =>
    rw [List.cons_append, List.forM] at hrun
    obtain ⟨_, s₁, hfirst, hrun⟩ := run_bind_eq_ok.mp hrun
    exact ih (h.step hfirst) hrun

/-- Lowering of the instruction `i` leads from `s` to `s'`, and what it emits is `code`, which
stands in block `k` of `g`. -/
structure Lowers (c : Scope) (g : Machine.Function) (k : Nat) (i : Ir.Instruction) (s s' : State)
    (code : List Instruction) : Prop where
  run : ∃ next, (c.lowerInstruction next i).run s = .ok ((), s')
  code_eq : s'.code.toList = s.code.toList ++ code
  tracked : Tracked c.target s
  framed : s.Framed g
  slots : s'.slots ⊆ g.slots
  placed : s'.code.toList <+: g.rest k 0

/-- **The code of every instruction of a function stands in its block.** -/
theorem exists_lowered_instruction (h : lowerFunction t f = .ok g) {k : Nat}
    (hb : f.blocks[k]? = some b) {before : List Ir.Instruction}
    (hi : b.instructions = before ++ i :: todo) :
    ∃ s s' code, Reaches ⟨t, f.name⟩ f (i :: todo) b (f.blocks.drop (k + 1)) s ∧
      Lowers ⟨t, f.name⟩ g k i s s' code := by
  obtain ⟨s₀, s₃, hcloses⟩ := exists_lowered_block h hb
  obtain ⟨hreaches, hrun, hblock, hslots⟩ := hcloses
  rw [hi] at hreaches hrun
  obtain ⟨s, hs, hrun⟩ := exists_split_of_forM hreaches hrun
  rw [List.forM] at hrun
  obtain ⟨_, s', hfirst, hrun⟩ := run_bind_eq_ok.mp hrun
  obtain ⟨hgrows, hs'⟩ := grows_lowerInstruction hs.sound hfirst rfl
  obtain ⟨hgrows', -⟩ := grows_forM hs' hrun
  obtain ⟨code, hcode⟩ := hgrows.code
  have hslots' : s'.slots ⊆ g.slots := List.Subset.trans hgrows'.slots hslots
  refine ⟨s, s', code, hs, ⟨_, hfirst⟩, hcode.symm, hs.tracked,
    hs.sound.framed (List.Subset.trans hgrows.slots hslots'), hslots', ?_⟩
  rw [Function.rest, hblock]
  exact hgrows'.code

end Retarget.Lowering
