import Retarget.Proofs.Lowering.Steps

/-!
# Straight code

Only jumps, branches and returns are lowered to code that control may leave a block at: all other
steps of lowering emit straight code (`Flows`).  So the code so far is straight as long as no
terminator was lowered in the block (`Reaches.straight`).
-/

namespace Retarget.Lowering

open Machine

variable {c : Scope} {α : Type} {s s' : State}

/-- The step emits straight code. -/
structure Flows (x : Lower α) : Prop where
  ok : ∀ s a s', x.run s = .ok (a, s') →
    ∃ code, s'.code.toList = s.code.toList ++ code ∧ ∀ i ∈ code, i.isExit = false

theorem Flows.of_goes {x : Lower α} {P : State → α → Prop}
    (h : ∀ s, Goes (fun i => i.isExit = false) (fun _ => True) s x (P s)) : Flows x :=
  ⟨fun s a s' hrun => exists_code_of_evolves ((h s).ok a s' hrun).1⟩

theorem flows_aggregateParts (value : Ir.Value) (registers : List RegId) :
    Flows (c.aggregateParts value registers) :=
  .of_goes fun _ => goes_aggregateParts (fun _ _ _ h => h) value registers

/-- **Instructions inside a block are lowered to straight code.** -/
theorem flows_lowerInstruction (next : Option String) {i : Ir.Instruction}
    (hi : i.isTerminator = false) : Flows (c.lowerInstruction next i) :=
  .of_goes fun _ =>
    goes_lowerInstruction_of_not_terminator next (fun _ _ => trivial) (fun _ h _ => h) hi

/-- On the way through the parameters only stores are emitted. -/
theorem flows_lowerParameters (ps : List Ir.Parameter) : Flows (ps.forM c.lowerParameter) := by
  refine ⟨fun s _ s' hrun => ?_⟩
  have hsteps := parameterSteps hrun
  clear hrun
  induction hsteps with
  | refl => exact ⟨[], by simp⟩
  | tail _ hstep ih =>
    obtain ⟨code, hcode, hstraight⟩ := ih
    cases hstep with
    | store place source hplace hp hsource =>
      refine ⟨code ++ [.generic .store [place, source]], by simp [hcode], ?_⟩
      exact List.forall_mem_append.mpr ⟨hstraight, List.forall_mem_singleton.mpr rfl⟩
    | _ => exact ⟨code, hcode, hstraight⟩

/-! ## Functions -/

variable {f : Ir.Function} {todo : List Ir.Instruction} {b : Ir.Block} {rest : List Ir.Block}

theorem Flows.straight {x : Lower α} {a : α} (h : Flows x)
    (hs : ∀ i ∈ s.code.toList, i.isExit = false) (hrun : x.run s = .ok (a, s')) :
    ∀ i ∈ s'.code.toList, i.isExit = false := by
  obtain ⟨code, hcode, hstraight⟩ := h.ok s a s' hrun
  rw [hcode]
  exact fun i hi => (List.mem_append.mp hi).elim (hs i) (hstraight i)

/-- **The code so far is straight before the terminator of a block.** -/
theorem Reaches.straight (h : Reaches c f todo b rest s)
    (hb : ∀ done, b.instructions = done ++ todo → ∀ i ∈ done, i.isTerminator = false) :
    ∀ i ∈ s.code.toList, i.isExit = false := by
  induction h with
  | enter _ hparams =>
    exact (flows_lowerParameters _).straight (by simp [State.start]) hparams
  | @step i todo b rest s s' h hrun ih =>
    obtain ⟨done, hdone⟩ := h.isSuffix.2
    have hsplit : b.instructions = (done ++ [i]) ++ todo := by simp [← hdone]
    have hi := hb _ hsplit i (by simp)
    refine (flows_lowerInstruction _ hi).straight (ih fun done' hdone' => ?_) hrun
    refine fun j hj => hb (done' ++ [i]) (by simp [hdone']) j (by simp [hj])
  | next h hrun ih =>
    cases hrun
    simp

end Retarget.Lowering
