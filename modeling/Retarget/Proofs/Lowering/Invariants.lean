import Mathlib.Order.RelClasses
import Retarget.Proofs.Lowering.Runs

/-!
# Invariants of lowering

A step of lowering that keeps an invariant `I` of the state, and changes the state only along a
preorder `R`, leaves true what `R` does not undo.  Steps with this property (`Upholds`) compose: a
later step may rely on what an earlier one has answered, as far as `R` carries it.
-/

namespace Retarget.Lowering

/-- The step leads along `R` to a state with the invariant `I`, where `P` holds of the answer. -/
structure Upholds {α : Type} (R : State → State → Prop) (I : State → Prop) (s : State)
    (x : Lower α) (P : State → α → Prop) : Prop where
  ok : ∀ a s', x.run s = .ok (a, s') → R s s' ∧ I s' ∧ P s' a

namespace Upholds

variable {R : State → State → Prop} {I : State → Prop} {s s' : State}
  {α β : Type} {P P' : State → α → Prop} {Q : State → β → Prop}

theorem mono {x : Lower α} (hx : Upholds R I s x P) (h : ∀ s' a, R s s' → P s' a → P' s' a) :
    Upholds R I s x P' := by
  refine ⟨fun a s' hrun => ?_⟩
  obtain ⟨hR, hs', ha⟩ := hx.ok a s' hrun
  exact ⟨hR, hs', h s' a hR ha⟩

theorem get_bind {g : State → Lower β} (h : Upholds R I s (g s) Q) :
    Upholds R I s (get >>= g) Q :=
  ⟨h.ok⟩

theorem unsupported (detail : String) : Upholds R I s (Lowering.unsupported detail) P := ⟨nofun⟩

theorem unsupported_bind {g : α → Lower β} (detail : String) :
    Upholds R I s (Lowering.unsupported detail >>= g) Q :=
  ⟨nofun⟩

theorem modify {g : State → State} {P : State → Unit → Prop} (hR : R s (g s)) (hs : I (g s))
    (h : P (g s) ()) : Upholds R I s (modify g) P := by
  refine ⟨fun a s' hrun => ?_⟩
  cases hrun
  exact ⟨hR, hs, h⟩

variable [IsPreorder State R]

theorem pure {a : α} (hs : I s) (h : P s a) : Upholds R I s (Pure.pure a) P := by
  refine ⟨fun a' s' hrun => ?_⟩
  cases hrun
  exact ⟨refl_of R s, hs, h⟩

theorem bind {x : Lower α} {g : α → Lower β} (hx : Upholds R I s x P)
    (hg : ∀ a s', R s s' → I s' → P s' a → Upholds R I s' (g a) Q) :
    Upholds R I s (x >>= g) Q := by
  refine ⟨fun b s₂ hrun => ?_⟩
  obtain ⟨a, s₁, hfirst, hrun⟩ := run_bind_eq_ok.mp hrun
  obtain ⟨hR₁, hs₁, ha⟩ := hx.ok a s₁ hfirst
  obtain ⟨hR₂, hs₂, hb⟩ := (hg a s₁ hR₁ hs₁ ha).ok b s₂ hrun
  exact ⟨trans_of R hR₁ hR₂, hs₂, hb⟩

theorem check {x : Result α} (hs : I s) (h : ∀ a, x = .ok a → P s a) :
    Upholds R I s (Lowering.check x) P := by
  refine ⟨fun a s' hrun => ?_⟩
  obtain ⟨hx, rfl⟩ := run_check_eq_ok.mp hrun
  exact ⟨refl_of R _, hs, h a hx⟩

theorem forM {l : List α} {g : α → Lower Unit} (hs : I s)
    (hg : ∀ a ∈ l, ∀ s', R s s' → I s' → Upholds R I s' (g a) fun _ _ => True) :
    Upholds R I s (l.forM g) fun _ _ => True := by
  induction l generalizing s with
  | nil => exact pure hs trivial
  | cons a l ih =>
    rw [List.forM]
    obtain ⟨hfirst, hrest⟩ := List.forall_mem_cons.mp hg
    refine (hfirst s (refl_of R s) hs).bind fun _ s₁ hR₁ hs₁ _ => ih hs₁ ?_
    exact fun b hb s₂ hR₂ hs₂ => hrest b hb s₂ (trans_of R hR₁ hR₂) hs₂

/-- The answers of steps over a list hold at the end if `R` carries each of them there. -/
theorem mapM {l : List α} {g : α → Lower β} (hs : I s)
    (hmono : ∀ s₁ s₂ b, R s₁ s₂ → Q s₁ b → Q s₂ b)
    (hg : ∀ a ∈ l, ∀ s', R s s' → I s' → Upholds R I s' (g a) Q) :
    Upholds R I s (l.mapM g) fun s' bs => ∀ b ∈ bs, Q s' b := by
  induction l generalizing s with
  | nil => exact pure hs (by simp)
  | cons a l ih =>
    rw [List.mapM_cons]
    obtain ⟨hfirst, hrest⟩ := List.forall_mem_cons.mp hg
    refine (hfirst s (refl_of R s) hs).bind fun b s₁ hR₁ hs₁ hb => ?_
    refine (ih hs₁ fun a ha s₂ hR₂ hs₂ => hrest a ha s₂ (trans_of R hR₁ hR₂) hs₂).bind
      fun bs s₂ hR₂ hs₂ hbs => ?_
    exact pure hs₂ (List.forall_mem_cons.mpr ⟨hmono s₁ s₂ b hR₂ hb, hbs⟩)

end Upholds

end Retarget.Lowering
