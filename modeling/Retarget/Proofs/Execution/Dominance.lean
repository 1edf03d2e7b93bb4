import Retarget.Proofs.Execution.Step

/-!
# Dominance

A point of a function is a block with an index in it.  A point dominates another one if every way
from the entry goes through it before, and a function is in single-assignment form if the one
definition of a virtual register dominates its uses (`SingleAssignment`).  Dominance is a strict
order on the points that control arrives at, and every step follows the flow of control
(`flow_of_step`).
-/

namespace Retarget.Machine

variable {M : Interpretation} {f : Function} {s s' : State M} {i : Instruction} {op : GenericOp}
  {args : List (Arg M.pointerBits)} {e : Effect M}

/-- A block and an index in it. -/
abbrev Point := Nat × Nat

def State.point (s : State M) : Point := (s.block, s.index)

namespace Function

/-- Control can go from one point to the other. -/
inductive Flow (f : Function) : Point → Point → Prop
  | next {b k : Nat} {i : Instruction} (hi : f.instruction? b k = some i)
      (hfalls : i.fallsThrough) : Flow f (b, k) (b, k + 1)
  | jump {b k b' : Nat} {i : Instruction} {name : String} (hi : f.instruction? b k = some i)
      (hname : name ∈ i.targets) (hb : f.blockIndex? name = some b') : Flow f (b, k) (b', 0)
  | fall {b k : Nat} (hnone : f.instruction? b k = none) (hlt : b + 1 < f.blocks.length) :
      Flow f (b, k) (b + 1, 0)

/-- Control can get to the point from the entry. -/
inductive Arrives (f : Function) : Point → Prop
  | entry : Arrives f (0, 0)
  | step {x y : Point} (hx : Arrives f x) (hflow : f.Flow x y) : Arrives f y

/-- Control can get to the point from the entry without going through `p` before. -/
inductive Avoids (f : Function) (p : Point) : Point → Prop
  | entry : Avoids f p (0, 0)
  | step {x y : Point} (hx : Avoids f p x) (hne : x ≠ p) (hflow : f.Flow x y) : Avoids f p y

/-- Every way from the entry to the point `x` goes through `p` before. -/
def Dominates (f : Function) (p x : Point) : Prop := ¬ f.Avoids p x

/-- The instruction at the point defines the virtual register. -/
def Defines (f : Function) (p : Point) (r : RegId) : Prop :=
  ∃ i, f.instruction? p.1 p.2 = some i ∧ i.virtualDef? = some r

/-- The instruction at the point uses the register, also as the base of an address. -/
def Uses (f : Function) (p : Point) (r : RegId) : Prop :=
  ∃ i, f.instruction? p.1 p.2 = some i ∧ ∃ o ∈ i.uses, o.unallocated? = some r

/-- A virtual register has one definition, which dominates its uses, and parameters have none. -/
structure SingleAssignment (f : Function) : Prop where
  unique : ∀ {p q r}, f.Defines p r → f.Defines q r → p = q
  dominated : ∀ {p q r}, f.Defines p r → f.Uses q r → f.Dominates p q
  parameters : ∀ {p r}, f.Defines p r → ∀ i ∈ f.instructions, ∀ o ∈ i.operands,
    o.kind ≠ .parameter r

/-- The definitions of the register are made before control gets to the point. -/
def Available (f : Function) (x : Point) (r : RegId) : Prop := ∀ p, f.Defines p r → f.Dominates p x

variable {p q x y : Point} {r : RegId} {b k : Nat}

/-! ## The order of points -/

theorem Dominates.of_flow (h : f.Dominates p y) (hflow : f.Flow x y) (hne : x ≠ p) :
    f.Dominates p x :=
  fun havoids => h (.step havoids hne hflow)

theorem Dominates.trans (hpq : f.Dominates p q) (hqx : f.Dominates q x) : f.Dominates p x := by
  intro havoids
  suffices hsplit : f.Avoids q x ∨ f.Avoids p q from hsplit.elim hqx hpq
  clear hqx
  -- The way that avoids `p` goes through `q`, and up to there it avoids `p` too.
  induction havoids with
  | entry => exact .inl .entry
  | @step x y hx hne hflow ih =>
    rcases ih with hqx | hpq'
    · by_cases hxq : x = q
      · exact .inr (hxq ▸ hx)
      · exact .inl (.step hqx hxq hflow)
    · exact .inr hpq'

theorem Arrives.avoids_or (h : f.Arrives x) (p : Point) :
    f.Avoids p x ∨ f.Avoids p p ∧ f.Arrives p := by
  induction h with
  | entry => exact .inl .entry
  | @step x y hx hflow ih =>
    rcases ih with havoids | hp
    · by_cases hxp : x = p
      · exact .inr ⟨hxp ▸ havoids, hxp ▸ hx⟩
      · exact .inl (.step havoids hxp hflow)
    · exact .inr hp

theorem Arrives.not_dominates_self (h : f.Arrives x) : ¬ f.Dominates x x := by
  intro hdom
  rcases h.avoids_or x with havoids | ⟨havoids, -⟩
  · exact hdom havoids
  · exact hdom havoids

theorem Arrives.of_dominates (h : f.Arrives x) (hdom : f.Dominates p x) : f.Arrives p := by
  rcases h.avoids_or p with havoids | ⟨-, hp⟩
  · exact absurd havoids hdom
  · exact hp

theorem Flow.eq_of_succ (h : f.Flow x (b, k + 1)) : x = (b, k) := by
  cases h with
  | next => rfl

theorem dominates_succ (f : Function) (b k : Nat) : f.Dominates (b, k) (b, k + 1) := by
  intro havoids
  cases havoids with
  | step hx hne hflow => exact hne hflow.eq_of_succ

end Function

/-! ## Steps -/

theorem Operand.label?_of_eval {o : Operand} {frame : Frame} {name : String}
    (h : o.eval frame s = some (.label name)) : o.label? = some name := by
  rw [Operand.eval] at h
  split at h
  case h_7 name' hkind =>
    cases h
    rw [Operand.label?, hkind]
  all_goals first
    | cases h
    | obtain ⟨v, -, hv⟩ := Option.map_eq_some_iff.mp h
      cases hv

theorem Instruction.uses_of_isEffect (h : i.isEffect = true) : i.uses = i.operands := by
  rw [Instruction.uses, Instruction.hasDef, h]
  simp

namespace Executes

theorem fallsThrough (h : Executes f s i op args e) (hret : op ≠ .ret) (hjump : op ≠ .jump)
    (hbranch : op = .branch → args.length = 2) : i.fallsThrough = true := by
  rw [Instruction.fallsThrough, Instruction.isFallThroughBranch, h.isGeneric, h.isGeneric,
    h.isGeneric]
  by_cases hop : op = .branch
  · have heffect : i.isEffect = true := by
      rw [h.isEffect, hop]
      rfl
    have hlength : i.operands.length = 2 := by
      rw [← Instruction.uses_of_isEffect heffect, ← length_of_mapM_eq_some h.evaluates, hbranch hop]
    simp [hop, hlength]
  · simp [hret, hjump, hop]

theorem mem_targets (h : Executes f s i op args e) {name : String}
    (hop : op = .jump ∨ op = .branch) (hname : Arg.label name ∈ args) : name ∈ i.targets := by
  obtain ⟨o, ho, heval⟩ := exists_of_mem_mapM h.evaluates hname
  rw [Instruction.targets, h.isGeneric, h.isGeneric, if_pos (by simpa using hop)]
  exact List.mem_filterMap.mpr ⟨o, Instruction.mem_operands_of_mem_uses ho,
    Operand.label?_of_eval heval⟩

end Executes

namespace Function

theorem flow_of_step (h : f.step s = some (.go s')) : f.Flow s.point s'.point := by
  rcases step_cases h with ⟨i, op, args, e, hi, hexec, hperform⟩ | ⟨hnone, hlt, hm⟩
  · cases hcases : hexec.cases with
    | @assign d w hdest hvalue =>
      have hplain := Instruction.isEffect_eq_false_of_def? hdest
      rw [hexec.isEffect] at hplain
      have hfalls : i.fallsThrough = true := by
        refine hexec.fallsThrough ?_ ?_ ?_ <;> rintro rfl <;> simp [GenericOp.flags] at hplain
      rcases State.perform_assign hperform with ⟨r, -, hm⟩ | ⟨r, -, hm⟩
      · cases hm
        exact .next hi hfalls
      · cases hm
        exact .next hi hfalls
    | store hop =>
      cases hperform
      exact .next hi (hexec.fallsThrough (by simp [hop]) (by simp [hop]) (by simp [hop]))
    | jump hop hname =>
      obtain ⟨b, hb, hm⟩ := Option.map_eq_some_iff.mp hperform
      cases hm
      exact .jump hi (hexec.mem_targets hop hname) hb
    | skip hop hargs =>
      cases hperform
      exact .next hi (hexec.fallsThrough (by simp [hop]) (by simp [hop]) fun _ => hargs)
    | call hop =>
      cases hperform
      exact .next hi (hexec.fallsThrough (by simp [hop]) (by simp [hop]) (by simp [hop]))
    | stop => cases hperform
  · cases hm
    exact .fall hnone hlt

end Function

end Retarget.Machine
