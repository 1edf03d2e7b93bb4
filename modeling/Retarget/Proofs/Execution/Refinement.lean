import Retarget.Proofs.Execution.Step

/-!
# Refinement

A function refines another if it performs what the other performs and, where the other is safe,
nothing else.  A simulation shows this: every step of the one function is matched by a step of the
other or brings a rank down, so the other is never left behind for good (`Simulates.refines`).
-/

namespace Retarget.Machine.Function

variable {M : Interpretation} {f g h : Function} {s t : State M}

theorem Reaches.trans {u : State M} (hst : f.Reaches s t) (htu : f.Reaches t u) :
    f.Reaches s u := by
  induction htu with
  | refl => exact hst
  | step _ hstep ih => exact ih.step hstep

theorem Reaches.head {u : State M} (hstep : f.step s = some (.go t)) (htu : f.Reaches t u) :
    f.Reaches s u :=
  (Reaches.refl.step hstep).trans htu

theorem Safe.of_reaches (h : f.Safe s) (hst : f.Reaches s t) : f.Safe t :=
  fun u hu => h u (hst.trans hu)

/-- `g` performs from the state what `f` performs and, if `f` is safe, nothing else. -/
structure Refines (f g : Function) (s : State M) : Prop where
  keeps : ∀ events result, f.Performs s events result → g.Performs s events result
  safe : f.Safe s → g.Safe s
  adds : f.Safe s → ∀ events result, g.Performs s events result → f.Performs s events result

theorem Refines.refl (f : Function) (s : State M) : f.Refines f s :=
  ⟨fun _ _ h => h, fun h => h, fun _ _ _ h => h⟩

theorem Refines.trans (hfg : f.Refines g s) (hgh : g.Refines h s) : f.Refines h s :=
  ⟨fun es r hf => hgh.keeps es r (hfg.keeps es r hf), fun hf => hgh.safe (hfg.safe hf),
    fun hf es r hh => hfg.adds hf es r (hgh.adds (hfg.safe hf) es r hh)⟩

/-- The function makes the same move, up to a relation between states. -/
inductive Follows (g : Function) (R : State M → State M → Prop) (t : State M) : Move M → Prop
  | go {s' t' : State M} (hstep : g.step t = some (.go t')) (hR : R s' t') : Follows g R t (.go s')
  | stop {v : Option Bits} (hstep : g.step t = some (.stop v)) : Follows g R t (.stop v)

/-- States in agreement make the same move if their instructions have the same effect. -/
theorem Follows.of_agree {keep : RegId → Prop} {R : State M → State M → Prop} {i : Instruction}
    {op : GenericOp} {args : List (Arg M.pointerBits)} {e : Effect M} {m : Move M}
    (hagree : Agree keep s t) (hnames : g.blockIndex? = f.blockIndex?)
    (hi : g.instruction? t.block t.index = some i) (hexec : Executes g t i op args e)
    (hperform : s.perform f e = some m)
    (hR : ∀ s' t', m = .go s' → Agree keep s' t' → Along s s' t t' → R s' t') :
    g.Follows R t m := by
  rcases hagree.perform hnames hperform with
    ⟨v, rfl, hstop⟩ | ⟨s', t', rfl, hgo, hagree', halong⟩
  · exact .stop (step_of_executes hi hexec hstop)
  · exact .go (step_of_executes hi hexec hgo) (hR s' t' rfl hagree' halong)

theorem Follows.of_end {keep : RegId → Prop} {R : State M → State M → Prop}
    (hagree : Agree keep s t) (hrest : g.rest s.block t.index = [])
    (hlt : s.block + 1 < g.blocks.length)
    (hR : Agree keep (s.enter (s.block + 1)) (t.enter (s.block + 1)) →
      R (s.enter (s.block + 1)) (t.enter (s.block + 1))) :
    g.Follows R t (.go (s.enter (s.block + 1))) := by
  have hnone : g.instruction? t.block t.index = none := by
    rw [instruction?_eq_head?, hagree.block, hrest]
    rfl
  rw [← hagree.block] at hlt
  have hstep := step_of_none hnone hlt
  rw [hagree.block] at hstep
  exact .go hstep (hR (hagree.enter _))

/-- A relation between the states of two functions that steps of the first keep. -/
structure Simulates (f g : Function) (R : State M → State M → Prop) (rank : State M → Nat) :
    Prop where
  trace : ∀ {s t}, R s t → t.trace = s.trace
  move : ∀ {s t m}, R s t → f.step s = some m →
    g.Follows R t m ∨ ∃ s', m = .go s' ∧ R s' t ∧ rank s' < rank s

namespace Simulates

variable {R : State M → State M → Prop} {rank : State M → Nat}

theorem stop (hsim : Simulates f g R rank) {v : Option Bits} (hR : R s t)
    (hstep : f.step s = some (.stop v)) : g.step t = some (.stop v) := by
  rcases hsim.move hR hstep with hfollows | ⟨s', hm, -⟩
  · cases hfollows with
    | stop hstep' => exact hstep'
  · cases hm

theorem go (hsim : Simulates f g R rank) {s' : State M} (hR : R s t)
    (hstep : f.step s = some (.go s')) :
    (R s' t ∧ rank s' < rank s) ∨ ∃ t', g.step t = some (.go t') ∧ R s' t' := by
  rcases hsim.move hR hstep with hfollows | ⟨s'', hm, hR', hlt⟩
  · cases hfollows with
    | go hstep' hR' => exact .inr ⟨_, hstep', hR'⟩
  · cases hm
    exact .inl ⟨hR', hlt⟩

theorem forward (hsim : Simulates f g R rank) (hR : R s t) {s' : State M} (hf : f.Reaches s s') :
    ∃ t', g.Reaches t t' ∧ R s' t' := by
  induction hf with
  | refl => exact ⟨t, .refl, hR⟩
  | step _ hstep ih =>
    obtain ⟨t', hg, hR'⟩ := ih
    rcases hsim.go hR' hstep with ⟨hR'', -⟩ | ⟨t'', hstep', hR''⟩
    · exact ⟨t', hg, hR''⟩
    · exact ⟨t'', hg.step hstep', hR''⟩

/-- A safe function gets, without the other moving, to where both return or both move. -/
theorem advance (hsim : Simulates f g R rank) (hR : R s t) (hsafe : f.Safe s) :
    ∃ s', f.Reaches s s' ∧ R s' t ∧
      ((∃ v, f.step s' = some (.stop v) ∧ g.step t = some (.stop v)) ∨
        ∃ s'' t', f.step s' = some (.go s'') ∧ g.step t = some (.go t') ∧ R s'' t') := by
  induction hrank : rank s using Nat.strongRecOn generalizing s with
  | ind n ih =>
    obtain ⟨m, hstep⟩ := Option.isSome_iff_exists.mp (hsafe s .refl)
    cases m with
    | stop v => exact ⟨s, .refl, hR, .inl ⟨v, hstep, hsim.stop hR hstep⟩⟩
    | go s₁ =>
      rcases hsim.go hR hstep with ⟨hR₁, hlt⟩ | ⟨t', hstep', hR'⟩
      · obtain ⟨s', hreach, hrest⟩ :=
          ih (rank s₁) (hrank ▸ hlt) hR₁ (hsafe.of_reaches (.head hstep .refl)) rfl
        exact ⟨s', .head hstep hreach, hrest⟩
      · exact ⟨s, .refl, hR, .inr ⟨s₁, t', hstep, hstep', hR'⟩⟩

theorem backward (hsim : Simulates f g R rank) (hR : R s t) (hsafe : f.Safe s) {t' : State M}
    (hg : g.Reaches t t') : ∃ s', f.Reaches s s' ∧ R s' t' := by
  induction hg with
  | refl => exact ⟨s, .refl, hR⟩
  | step _ hstep ih =>
    obtain ⟨s₁, hf, hR₁⟩ := ih
    obtain ⟨s₂, hf₂, -, hboth⟩ := hsim.advance hR₁ (hsafe.of_reaches hf)
    rcases hboth with ⟨v, -, hstop⟩ | ⟨s₃, t₃, hstep₂, hgo, hR₃⟩
    · cases hstep.symm.trans hstop
    · cases hstep.symm.trans hgo
      exact ⟨s₃, (hf.trans hf₂).step hstep₂, hR₃⟩

/-- **A simulation is a refinement.** -/
theorem refines (hsim : Simulates f g R rank) (hR : R s s) : f.Refines g s := by
  refine ⟨?_, fun hsafe => ?_, fun hsafe => ?_⟩
  · rintro events result ⟨s', hf, rfl, hresult⟩
    obtain ⟨t', hg, hR'⟩ := hsim.forward hR hf
    exact ⟨t', hg, hsim.trace hR', fun v hv => hsim.stop hR' (hresult v hv)⟩
  · intro t' hg
    obtain ⟨s', hf, hR'⟩ := hsim.backward hR hsafe hg
    obtain ⟨s₁, -, -, hboth⟩ := hsim.advance hR' (hsafe.of_reaches hf)
    rcases hboth with ⟨v, -, hstop⟩ | ⟨s'', t'', -, hgo, -⟩
    · simp [hstop]
    · simp [hgo]
  · rintro events result ⟨t', hg, rfl, hresult⟩
    obtain ⟨s', hf, hR'⟩ := hsim.backward hR hsafe hg
    obtain ⟨s₁, hf₁, hR₁, hboth⟩ := hsim.advance hR' (hsafe.of_reaches hf)
    refine ⟨s₁, hf.trans hf₁, (hsim.trace hR₁).symm, fun v hv => ?_⟩
    rcases hboth with ⟨w, hstop, hstop'⟩ | ⟨s'', t'', -, hgo, -⟩
    · cases (hresult v hv).symm.trans hstop'
      exact hstop
    · cases (hresult v hv).symm.trans hgo

end Simulates

end Retarget.Machine.Function
