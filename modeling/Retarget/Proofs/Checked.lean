import Mathlib.Data.List.Forall2
import Retarget.Word

/-!
# Opening checked computations

A `Result` that holds a value is opened one step at a time: `bind_eq_ok` splits a `do` block,
`map_eq_ok` a part of the result, `orFail_eq_ok` an optional that had to be there.  `Yields` says
what a computation answers and that it does not fail for a reason inside the code generator; it goes
through a computation in the same steps.  `mem_of_lookup_eq_some` opens a lookup.
-/

namespace Retarget

variable {α β : Type}

theorem mem_of_lookup_eq_some [BEq α] [LawfulBEq α] {l : List (α × β)} {a : α} {b : β}
    (h : l.lookup a = some b) : (a, b) ∈ l := by
  obtain ⟨l₁, l₂, rfl, -⟩ := List.lookup_eq_some_iff.mp h
  simp

theorem bind_eq_ok {ε : Type} {x : Except ε α} {g : α → Except ε β} {b : β} :
    (x >>= g) = .ok b ↔ ∃ a, x = .ok a ∧ g a = .ok b := by
  cases x <;> simp [bind, Except.bind]

theorem bind_eq_error {x : Result α} {g : α → Result β} {e : Failure} :
    (x >>= g) = .error e ↔ x = .error e ∨ ∃ a, x = .ok a ∧ g a = .error e := by
  cases x <;> simp [bind, Except.bind]

theorem ok_bind (a : α) (g : α → Result β) : ((.ok a : Result α) >>= g) = g a := rfl

theorem pure_eq_ok {a b : α} : (pure a : Result α) = .ok b ↔ a = b := by
  simp [pure, Except.pure]

theorem orFail_eq_ok {failure : Failure} {o : Option α} {a : α} :
    orFail failure o = .ok a ↔ o = some a := by
  cases o <;> simp [orFail]

theorem orFail_eq_error {failure e : Failure} {o : Option α} (h : orFail failure o = .error e) :
    e = failure := by
  cases o with
  | none =>
    cases h
    rfl
  | some a => cases h

theorem map_eq_ok {x : Result α} {g : α → β} {b : β} :
    x.map g = .ok b ↔ ∃ a, x = .ok a ∧ g a = b := by
  cases x <;> simp [Except.map]

theorem mapM_eq_ok_map {l : List α} {g : α → Result β} {k : α → β}
    (h : ∀ a ∈ l, g a = .ok (k a)) : l.mapM g = .ok (l.map k) := by
  induction l with
  | nil => rfl
  | cons a l ih =>
    rw [List.forall_mem_cons] at h
    rw [List.mapM_cons, h.1, ok_bind, ih h.2]
    rfl

theorem exists_getElem?_of_forall₂ {R : α → β → Prop} {as : List α} {bs : List β}
    (h : List.Forall₂ R as bs) {k : Nat} {a : α} (ha : as[k]? = some a) :
    ∃ b, bs[k]? = some b ∧ R a b := by
  obtain ⟨hk, rfl⟩ := List.getElem?_eq_some_iff.mp ha
  have hk' : k < bs.length := h.length_eq ▸ hk
  exact ⟨bs[k], List.getElem?_eq_getElem hk', h.get hk hk'⟩

theorem exists_mem_of_forall₂ {R : α → β → Prop} {as : List α} {bs : List β}
    (h : List.Forall₂ R as bs) {a : α} (ha : a ∈ as) : ∃ b ∈ bs, R a b := by
  obtain ⟨k, hk⟩ := List.mem_iff_getElem?.mp ha
  obtain ⟨b, hb, hab⟩ := exists_getElem?_of_forall₂ h hk
  exact ⟨b, List.mem_of_getElem? hb, hab⟩

theorem forall₂_imp_mem {R S : α → β → Prop} {as : List α} {bs : List β}
    (h : List.Forall₂ R as bs) (himp : ∀ a b, b ∈ bs → R a b → S a b) : List.Forall₂ S as bs := by
  induction h with
  | nil => exact .nil
  | cons hfirst _ ih =>
    exact .cons (himp _ _ List.mem_cons_self hfirst)
      (ih fun a b hb => himp a b (List.mem_cons_of_mem _ hb))

theorem forall₂_of_mapM_eq_ok {g : α → Result β} {l : List α} {bs : List β}
    (h : l.mapM g = .ok bs) : List.Forall₂ (fun a b => g a = .ok b) l bs := by
  induction l generalizing bs with
  | nil =>
    cases h
    exact .nil
  | cons a l ih =>
    rw [List.mapM_cons] at h
    obtain ⟨b, hb, h⟩ := bind_eq_ok.mp h
    obtain ⟨bs', hbs', h⟩ := bind_eq_ok.mp h
    cases h
    exact .cons hb (ih hbs')

theorem exists_mem_of_mapM_eq_ok {g : α → Result β} {l : List α} {bs : List β} {a : α}
    (h : l.mapM g = .ok bs) (ha : a ∈ l) : ∃ b ∈ bs, g a = .ok b :=
  exists_mem_of_forall₂ (forall₂_of_mapM_eq_ok h) ha

theorem exists_of_mem_mapM_eq_ok {g : α → Result β} {l : List α} {bs : List β} {b : β}
    (h : l.mapM g = .ok bs) (hb : b ∈ bs) : ∃ a ∈ l, g a = .ok b :=
  exists_mem_of_forall₂ (forall₂_of_mapM_eq_ok h).flip hb

theorem foldlM_eq_ok {l : List β} {g : α → β → Result α} {P : α → Prop} {a a' : α} (ha : P a)
    (hstep : ∀ b ∈ l, ∀ a a', P a → g a b = .ok a' → P a') (h : l.foldlM g a = .ok a') : P a' := by
  induction l generalizing a with
  | nil =>
    cases h
    exact ha
  | cons b l ih =>
    rw [List.foldlM_cons] at h
    obtain ⟨a₁, hb, h⟩ := bind_eq_ok.mp h
    exact ih (hstep b (by simp) a a₁ ha hb) (fun b hb => hstep b (by simp [hb])) h

theorem foldlM_range_eq_ok {n : Nat} {g : α → Nat → Result α} {R : Nat → α → Prop} {a a' : α}
    (ha : R 0 a) (hstep : ∀ k a a', R k a → g a k = .ok a' → R (k + 1) a')
    (h : (List.range n).foldlM g a = .ok a') : R n a' := by
  induction n generalizing a' with
  | zero =>
    cases h
    exact ha
  | succ n ih =>
    rw [List.range_succ, List.foldlM_append] at h
    obtain ⟨x, hx, h⟩ := bind_eq_ok.mp h
    rw [List.foldlM_cons] at h
    obtain ⟨y, hy, h⟩ := bind_eq_ok.mp h
    cases h
    exact hstep n x _ (ih hx) hy

/-- A walk that fails has a step that fails, with what the steps before it kept. -/
theorem foldlM_range_eq_error {n : Nat} {g : α → Nat → Result α} {R : Nat → α → Prop} {a : α}
    {e : Failure} (ha : R 0 a) (hstep : ∀ k a a', R k a → g a k = .ok a' → R (k + 1) a')
    (h : (List.range n).foldlM g a = .error e) : ∃ k a', R k a' ∧ g a' k = .error e := by
  induction n with
  | zero => cases h
  | succ n ih =>
    rw [List.range_succ, List.foldlM_append] at h
    cases hn : (List.range n).foldlM g a with
    | error e' =>
      rw [hn] at h
      cases h
      exact ih hn
    | ok a' =>
      rw [hn, ok_bind, List.foldlM_cons] at h
      refine ⟨n, a', foldlM_range_eq_ok ha hstep hn, ?_⟩
      cases hg : g a' n with
      | error e' =>
        rw [hg] at h
        cases h
        rfl
      | ok a'' =>
        rw [hg] at h
        cases h

/-! ## Answers and failures -/

/-- Whether the failure is the fault of the code generator. -/
def Failure.isInternal : Failure → Bool
  | internal _ => true
  | _ => false

/-- The computation answers something that `P` holds of, or fails for a reason outside the code
generator. -/
inductive Yields (P : α → Prop) : Result α → Prop
  | ok {a : α} (h : P a) : Yields P (.ok a)
  | error {e : Failure} (h : e.isInternal = false) : Yields P (.error e)

variable {P : α → Prop} {Q : β → Prop}

namespace Yields

theorem pure {a : α} (h : P a) : Yields P (Pure.pure a : Result α) := .ok h

theorem throw {e : Failure} (h : e.isInternal = false) : Yields P (throw e : Result α) := .error h

theorem mono {x : Result α} {P' : α → Prop} (h : Yields P x) (hP : ∀ a, P a → P' a) :
    Yields P' x := by
  cases h with
  | ok h => exact .ok (hP _ h)
  | error h => exact .error h

theorem bind {x : Result α} {g : α → Result β} (hx : Yields P x) (hg : ∀ a, P a → Yields Q (g a)) :
    Yields Q (x >>= g) := by
  cases hx with
  | ok h => exact hg _ h
  | error h => exact .error h

/-- The rest of a computation may rely on the answer that was computed. -/
theorem bind_of_eq {x : Result α} {g : α → Result β} (hx : Yields P x)
    (hg : ∀ a, x = .ok a → P a → Yields Q (g a)) : Yields Q (x >>= g) := by
  cases hx with
  | ok h => exact hg _ rfl h
  | error h => exact .error h

theorem of_eq_ok {x : Result α} {a : α} (h : Yields P x) (hx : x = .ok a) : P a := by
  subst hx
  cases h with
  | ok h => exact h

theorem ne_internal {x : Result α} (h : Yields P x) (detail : String) :
    x ≠ .error (.internal detail) := by
  rintro rfl
  cases h with
  | error h => cases h

theorem orFail {failure : Failure} {o : Option α} (hfailure : failure.isInternal = false)
    (h : ∀ a, o = some a → P a) : Yields P (orFail failure o) := by
  cases o with
  | none => exact .error hfailure
  | some a => exact .ok (h a rfl)

theorem orFail_bind {failure : Failure} {o : Option α} {g : α → Result β}
    (hfailure : failure.isInternal = false) (h : ∀ a, o = some a → Yields Q (g a)) :
    Yields Q (Retarget.orFail failure o >>= g) :=
  (Yields.orFail (P := fun a => o = some a) hfailure fun _ ha => ha).bind h

theorem mapM_map {γ : Type} {l : List α} {g : α → Result β} {k : β → γ} {j : α → γ}
    (h : ∀ a ∈ l, Yields (fun b => k b = j a ∧ Q b) (g a)) :
    Yields (fun bs => bs.map k = l.map j ∧ ∀ b ∈ bs, Q b) (l.mapM g) := by
  induction l with
  | nil => exact .pure ⟨rfl, by simp⟩
  | cons a l ih =>
    rw [List.mapM_cons]
    refine (h a (by simp)).bind fun b hb => ?_
    refine (ih fun a ha => h a (by simp [ha])).bind fun bs hbs => .pure ⟨?_, ?_⟩
    · rw [List.map_cons, List.map_cons, hb.1, hbs.1]
    · simpa using ⟨hb.2, hbs.2⟩

theorem mapM {l : List α} {g : α → Result β} (h : ∀ a ∈ l, Yields Q (g a)) :
    Yields (fun bs => ∀ b ∈ bs, Q b) (l.mapM g) :=
  (mapM_map (k := fun _ => ()) (j := fun _ => ()) fun a ha =>
    (h a ha).mono fun _ hb => ⟨rfl, hb⟩).mono fun _ hbs => hbs.2

theorem foldlM {l : List β} {g : α → β → Result α} {a : α} (ha : P a)
    (h : ∀ a, P a → ∀ b ∈ l, Yields P (g a b)) : Yields P (l.foldlM g a) := by
  induction l generalizing a with
  | nil => exact .pure ha
  | cons b l ih =>
    rw [List.foldlM_cons]
    exact (h a ha b (by simp)).bind fun a ha => ih ha fun a ha b hb => h a ha b (by simp [hb])

theorem foldlM_range {n : Nat} {g : α → Nat → Result α} {R : Nat → α → Prop} {a : α} (ha : R 0 a)
    (h : ∀ k < n, ∀ a, R k a → Yields (R (k + 1)) (g a k)) :
    Yields (R n) ((List.range n).foldlM g a) := by
  induction n with
  | zero => exact .pure ha
  | succ n ih =>
    rw [List.range_succ, List.foldlM_append]
    refine (ih fun k hk => h k (by omega)).bind fun a ha => ?_
    rw [List.foldlM_cons]
    exact (h n (by omega) a ha).bind fun a ha => .pure ha

end Yields

theorem yields_fit (bits n : Nat) : Yields (fun _ => True) (Word.fit bits n) := by
  rw [Word.fit]
  split
  · exact .ok trivial
  · exact .error rfl

theorem yields_fitSigned (i : Int) : Yields (fun _ => True) (Word.fitSigned i) := by
  rw [Word.fitSigned]
  split
  · exact .ok trivial
  · exact .error rfl

end Retarget
