import Retarget.Proofs.Execution.Simplifier

/-!
# The simplifier reads registers that are available

In single-assignment form, the definition of a register that a value is known to be in dominates the
point where it is known, and a renamed register is defined where its definition is dropped
(`soundAt`).  So a chain of renamings goes up in the order of dominance, and it ends at a register
that is not renamed (`resolve_not_renamed`).
-/

namespace Retarget.Machine

variable {f : Function} {i : Instruction} {b k : Nat} {x p : Point} {defs : List RegId} {kn : Known}
  {rs : Renames} {dest : RegId} {source : Source} {o : Operand}

/-! ## What is known -/

theorem Instruction.singleDefinition?_eq_some (h : i.singleDefinition? defs = some dest) :
    i.virtualDef? = some dest :=
  (Option.filter_eq_some_iff.mp h).1

namespace Known

theorem expression?_eq_some {e : Expression} (h : expression? defs i = some (dest, e)) :
    i.virtualDef? = some dest ∧ ∃ op d, i.generic? = some op ∧ op.isPure = true ∧
      i.def? = some d ∧ (∀ o ∈ i.uses, o.isStable defs = true) ∧
      e = ⟨i.opcode, i.relation, d.ty, i.uses⟩ := by
  obtain ⟨_, hpure, h⟩ := Option.bind_eq_some_iff.mp h
  obtain ⟨dest', hdest, h⟩ := Option.bind_eq_some_iff.mp h
  obtain ⟨d, hd, h⟩ := Option.bind_eq_some_iff.mp h
  obtain ⟨_, hstable, h⟩ := Option.bind_eq_some_iff.mp h
  cases h
  obtain ⟨op, hop, hpure⟩ := (Option.any_eq_true _ _).mp (of_guard_eq_some hpure)
  refine ⟨Instruction.singleDefinition?_eq_some hdest, op, d, hop, hpure, hd, ?_, rfl⟩
  exact List.all_eq_true.mp (of_guard_eq_some hstable)

/-- A redundant load has a value that is known to be in the frame. -/
def Reloads (kn : Known) (i : Instruction) (source : Source) : Prop :=
  i.isGeneric .load = true ∧ ∃ place value, (i.operand? 1).bind (·.frameByte?) = some place ∧
    (place, value) ∈ kn.slots ∧ (i.operand? 0).map (·.ty) = some value.ty ∧
    Source.of? value = some source

/-- A redundant computation is one that is known. -/
def Repeats (kn : Known) (i : Instruction) (source : Source) : Prop :=
  ∃ op d, i.generic? = some op ∧ op.isPure = true ∧ i.def? = some d ∧
    (⟨i.opcode, i.relation, d.ty, i.uses⟩, source) ∈ kn.expressions

theorem redundant?_cases (h : kn.redundant? defs i = some (dest, source)) :
    i.virtualDef? = some dest ∧ (kn.Reloads i source ∨ kn.Repeats i source) := by
  rw [redundant?] at h
  split at h
  · cases h
  · split at h
    · next hload =>
      obtain ⟨dest', hdest, h⟩ := Option.bind_eq_some_iff.mp h
      obtain ⟨place, hplace, h⟩ := Option.bind_eq_some_iff.mp h
      obtain ⟨value, hvalue, h⟩ := Option.bind_eq_some_iff.mp h
      obtain ⟨_, hty, h⟩ := Option.bind_eq_some_iff.mp h
      obtain ⟨source', hsource, h⟩ := Option.bind_eq_some_iff.mp h
      cases h
      refine ⟨Instruction.singleDefinition?_eq_some hdest, .inl ⟨hload, place, value, hplace, ?_⟩⟩
      exact ⟨mem_of_lookup_eq_some hvalue, eq_of_beq (of_guard_eq_some hty), hsource⟩
    · obtain ⟨⟨dest', e⟩, he, h⟩ := Option.bind_eq_some_iff.mp h
      obtain ⟨earlier, hearlier, h⟩ := Option.bind_eq_some_iff.mp h
      cases h
      obtain ⟨hdest, op, d, hop, hpure, hd, -, rfl⟩ := expression?_eq_some he
      exact ⟨hdest, .inr ⟨op, d, hop, hpure, hd, mem_of_lookup_eq_some hearlier⟩⟩

theorem mem_expressions_after {entry : Expression × Source}
    (h : entry ∈ (kn.after defs i).expressions) :
    entry ∈ kn.expressions ∨
      ∃ dest, expression? defs i = some (dest, entry.1) ∧ entry.2 = .virtualReg dest := by
  rw [after] at h
  split at h
  · cases h
  · split at h
    · left
      rw [afterStore] at h
      split at h
      · dsimp only at h
        split at h <;> exact h
      · exact h
    · split at h
      · next dest e he =>
        rcases List.mem_cons.mp h with rfl | h
        · exact .inr ⟨dest, he, rfl⟩
        · exact .inl h
      · exact .inl h

/-- A known value of the frame was stored by the instruction, or it was known before and the
instruction stores to another slot at most. -/
theorem mem_slots_after {entry : (Slot × Int) × Operand} (h : entry ∈ (kn.after defs i).slots) :
    i.isCall = false ∧
    ((entry ∈ kn.slots ∧ (i.isStore = true →
        ∃ place, (i.operand? 0).bind (·.frameByte?) = some place ∧ entry.1.1 ≠ place.1)) ∨
      (i.isStore = true ∧ (i.operand? 0).bind (·.frameByte?) = some entry.1 ∧
        i.operand? 1 = some entry.2 ∧ (Source.of? entry.2).isSome)) := by
  rw [after] at h
  split at h
  · cases h
  · next hcall =>
    refine ⟨by simpa using hcall, ?_⟩
    split at h
    · next hstore =>
      rw [afterStore] at h
      split at h
      · next slot offset value hplace hvalue =>
        have hothers : entry ∈ kn.slots.filter (fun entry => entry.1.1 != slot) →
            entry ∈ kn.slots ∧ (i.isStore = true → ∃ place,
              (i.operand? 0).bind (·.frameByte?) = some place ∧ entry.1.1 ≠ place.1) := by
          intro hmem
          obtain ⟨hmem, hne⟩ := List.mem_filter.mp hmem
          exact ⟨hmem, fun _ => ⟨_, hplace, by simpa using hne⟩⟩
        dsimp only at h
        split at h
        · next hsource =>
          rcases List.mem_cons.mp h with rfl | h
          · exact .inr ⟨hstore, hplace, hvalue, (Bool.and_eq_true_iff.mp hsource).1⟩
          · exact .inl (hothers h)
        · exact .inl (hothers h)
      · cases h
    · next hstore =>
      refine .inl ⟨?_, fun h => absurd h hstore⟩
      split at h <;> exact h

end Known

/-! ## Registers that can be read -/

/-- The definitions of the source are made before the point; a parameter has none. -/
def Source.Ready (f : Function) (x : Point) : Source → Prop
  | virtualReg r => f.Available x r
  | parameter r => ∀ p, ¬ f.Defines p r

/-- The definitions of what the operand reads are made before the point. -/
def Operand.Ready (f : Function) (x : Point) (o : Operand) : Prop :=
  match o.kind with
  | .virtualReg r | .memory r _ => f.Available x r
  | .parameter r => ∀ p, ¬ f.Defines p r
  | _ => True

theorem Function.Available.of_dominates {r : RegId} (h : f.Available p r) (hdom : f.Dominates p x) :
    f.Available x r :=
  fun q hq => (h q hq).trans hdom

theorem Source.Ready.available (h : source.Ready f x) : f.Available x source.id := by
  cases source with
  | virtualReg r => exact h
  | parameter r => exact fun p hp => absurd hp (h p)

theorem Source.Ready.of_dominates (h : source.Ready f p) (hdom : f.Dominates p x) :
    source.Ready f x := by
  cases source with
  | virtualReg r => exact Function.Available.of_dominates h hdom
  | parameter r => exact h

theorem Operand.Ready.available {r : RegId} (h : o.Ready f x) (hr : o.unallocated? = some r) :
    f.Available x r := by
  rw [Operand.Ready] at h
  rw [Operand.unallocated?] at hr
  split at hr
  · next hkind =>
    cases hr
    rwa [hkind] at h
  · next hkind =>
    cases hr
    rw [hkind] at h
    exact fun p hp => absurd hp (h p)
  · next hkind =>
    cases hr
    rwa [hkind] at h
  · cases hr

theorem Operand.Ready.of_dominates (h : o.Ready f p) (hdom : f.Dominates p x) : o.Ready f x := by
  rw [Operand.Ready] at h ⊢
  split at h
  · exact Function.Available.of_dominates h hdom
  · exact Function.Available.of_dominates h hdom
  · exact h
  · trivial

theorem Source.ready_of {o : Operand} (h : Source.of? o = some source) :
    source.Ready f x ↔ o.Ready f x := by
  rw [Source.of?] at h
  rw [Operand.Ready]
  split at h
  · next hkind =>
    cases h
    rw [hkind]
    rfl
  · next hkind =>
    cases h
    rw [hkind]
    rfl
  · cases h

theorem Source.ready_withKind : (o.withKind source.kind).Ready f x ↔ source.Ready f x := by
  cases source <;> rfl

theorem Function.SingleAssignment.ready (hf : f.SingleAssignment) (hi : f.instruction? b k = some i)
    (ho : o ∈ i.uses) : o.Ready f (b, k) := by
  rw [Operand.Ready]
  have huses : ∀ r, o.unallocated? = some r → f.Available (b, k) r :=
    fun r hr p hp => hf.dominated hp ⟨i, hi, o, ho, hr⟩
  rw [Operand.unallocated?] at huses
  split
  · next hkind =>
    rw [hkind] at huses
    exact huses _ rfl
  · next hkind =>
    rw [hkind] at huses
    exact huses _ rfl
  · next hkind =>
    intro p hp
    exact hf.parameters hp i (mem_of_instruction? hi) o
      (Instruction.mem_operands_of_mem_uses ho) hkind
  · trivial

/-! ## Renamed operands -/

namespace Instruction

theorem hasDef_apply (rs : Renames) (i : Instruction) : (rs.apply i).hasDef = i.hasDef := by
  rw [hasDef, hasDef, Renames.apply, withOperands, List.isEmpty_map]
  rfl

theorem def?_apply (rs : Renames) (i : Instruction) :
    (rs.apply i).def? = i.def?.map rs.applyOperand := by
  rw [def?, def?, hasDef_apply]
  split
  · exact List.head?_map
  · rfl

theorem uses_apply (rs : Renames) (i : Instruction) :
    (rs.apply i).uses = i.uses.map rs.applyOperand := by
  rw [uses, uses, hasDef_apply]
  split
  · exact List.map_tail.symm
  · rfl

end Instruction

namespace Renames

theorem follow_zero (rs : Renames) (source : Source) : rs.follow 0 source = source := by
  cases source <;> rfl

/-- Every renamed register has a definition, and its source can be read there. -/
def Sound (f : Function) (rs : Renames) : Prop :=
  ∀ entry ∈ rs.entries, ∃ p, f.Defines p entry.1 ∧ entry.2.Ready f p

theorem Sound.follow (h : rs.Sound f) (hsource : source.Ready f x) (n : Nat) :
    (rs.follow n source).Ready f x := by
  induction n generalizing source with
  | zero => rwa [follow_zero]
  | succ n ih =>
    cases source with
    | parameter r => exact hsource
    | virtualReg r =>
      rw [Renames.follow]
      split
      · next next hnext =>
        obtain ⟨p, hp, hready⟩ := h _ (mem_of_lookup_eq_some hnext)
        exact ih (hready.of_dominates (hsource p hp))
      · exact hsource

theorem Sound.applyOperand (h : rs.Sound f) (ho : o.Ready f x) : (rs.applyOperand o).Ready f x := by
  rw [Renames.applyOperand]
  split
  · next r hkind =>
    have hsource : (Source.virtualReg r).Ready f x :=
      (Source.ready_of (by simp [Source.of?, hkind])).mpr ho
    exact Source.ready_withKind.mpr (h.follow hsource _)
  · next r offset hkind =>
    have hsource : (Source.virtualReg r).Ready f x :=
      ho.available (by simp [Operand.unallocated?, hkind])
    have hready := (h.follow hsource rs.entries.length).available
    rw [Operand.Ready, Operand.setReg, hkind]
    exact hready
  · exact ho

theorem follow_of_lookup_eq_none {r : RegId} (h : rs.entries.lookup r = none) (n : Nat) :
    rs.follow n (.virtualReg r) = .virtualReg r := by
  cases n with
  | zero => rfl
  | succ n => rw [follow, h]

theorem applyOperand_eq_self {r : RegId} (hkind : o.kind = .virtualReg r)
    (h : rs.entries.lookup r = none) : rs.applyOperand o = o := by
  rw [applyOperand, hkind]
  dsimp only
  rw [resolve, follow_of_lookup_eq_none h, Source.kind, Operand.withKind, ← hkind]

theorem virtualDef?_apply (h : ∀ r, i.virtualDef? = some r → rs.entries.lookup r = none) :
    (rs.apply i).virtualDef? = i.virtualDef? := by
  rw [Instruction.virtualDef?, Instruction.def?_apply]
  cases hd : i.def? with
  | none => simp [Instruction.virtualDef?, hd]
  | some d =>
    cases hkind : d.kind with
    | virtualReg r =>
      have hr : i.virtualDef? = some r := Instruction.virtualDef?_eq_some.mpr ⟨d, hd, hkind⟩
      rw [Option.map_some, applyOperand_eq_self hkind (h r hr), Instruction.virtualDef?, hd]
    | _ =>
      simp [Instruction.virtualDef?, hd, Option.filter, applyOperand, Operand.isVirtual,
        Operand.setReg, Operand.withKind, hkind]

end Renames

/-! ## The walk -/

/-- What is known can be read at the point. -/
structure Known.Ready (f : Function) (x : Point) (kn : Known) : Prop where
  expressions : ∀ entry ∈ kn.expressions, entry.2.Ready f x ∧
    ∀ o ∈ entry.1.uses, o.Ready f x ∧ o.isStable f.definitions = true
  slots : ∀ entry ∈ kn.slots, entry.2.Ready f x ∧ (Source.of? entry.2).isSome

namespace Known.Ready

theorem of_dominates (h : kn.Ready f p) (hdom : f.Dominates p x) : kn.Ready f x where
  expressions entry hentry :=
    ⟨(h.expressions entry hentry).1.of_dominates hdom, fun o ho =>
      ⟨((h.expressions entry hentry).2 o ho).1.of_dominates hdom,
        ((h.expressions entry hentry).2 o ho).2⟩⟩
  slots entry hentry :=
    ⟨(h.slots entry hentry).1.of_dominates hdom, (h.slots entry hentry).2⟩

theorem ready_source (h : kn.Ready f x) (hentry : kn.redundant? defs i = some (dest, source)) :
    source.Ready f x := by
  rcases (redundant?_cases hentry).2 with
    ⟨-, place, value, -, hmem, -, hsource⟩ | ⟨op, d, -, -, -, hmem⟩
  · exact (Source.ready_of hsource).mpr (h.slots _ hmem).1
  · exact (h.expressions _ hmem).1

theorem after (h : kn.Ready f (b, k)) (huses : ∀ o ∈ i.uses, o.Ready f (b, k))
    (hdef : ∀ r, i.virtualDef? = some r → f.Available (b, k + 1) r) :
    (kn.after f.definitions i).Ready f (b, k + 1) := by
  have hnext := h.of_dominates (f.dominates_succ b k)
  refine ⟨fun entry hentry => ?_, fun entry hentry => ?_⟩
  · rcases mem_expressions_after hentry with hold | ⟨dest, hexpr, hsource⟩
    · exact hnext.expressions entry hold
    · obtain ⟨hdest, op, d, -, -, -, hstable, he⟩ := expression?_eq_some hexpr
      rw [hsource, he]
      exact ⟨hdef dest hdest, fun o ho =>
        ⟨(huses o ho).of_dominates (f.dominates_succ b k), hstable o ho⟩⟩
  · rcases (mem_slots_after hentry).2 with ⟨hold, -⟩ | ⟨hstore, -, hvalue, hsource⟩
    · exact hnext.slots entry hold
    · refine ⟨Operand.Ready.of_dominates (huses _ ?_) (f.dominates_succ b k), hsource⟩
      rw [Instruction.uses_of_isEffect (by simp [Instruction.isEffect, hstore])]
      exact List.mem_of_getElem? hvalue

end Known.Ready

/-- The point comes first in the order of blocks and indices. -/
def Earlier (p x : Point) : Prop := p.1 < x.1 ∨ p.1 = x.1 ∧ p.2 < x.2

namespace Function

/-- The renaming is made where the register is defined, and its source can be read there. -/
structure RenamedAt (f : Function) (p : Point) (entry : RegId × Source) : Prop where
  dropped : f.Dropped p entry
  defines : f.Defines p entry.1
  ready : entry.2.Ready f p

/-- What the walk has gathered up to the point is sound. -/
structure SoundAt (f : Function) (x : Point) : Prop where
  renames : ∀ entry ∈ (f.renamesAt x).entries, ∃ p, Earlier p x ∧ f.RenamedAt p entry
  known : (f.knownAt x).Ready f x

namespace SoundAt

theorem sound (h : f.SoundAt x) : (f.renamesAt x).Sound f := by
  intro entry hentry
  obtain ⟨p, -, hp⟩ := h.renames entry hentry
  exact ⟨p, hp.defines, hp.ready⟩

theorem lookup_eq_none (h : f.SoundAt x) (hf : f.SingleAssignment) {r : RegId}
    (hr : f.Defines x r) : (f.renamesAt x).entries.lookup r = none := by
  rw [List.lookup_eq_none_iff]
  intro entry hentry
  obtain ⟨p, hearlier, hp⟩ := h.renames entry hentry
  rw [bne_iff_ne]
  rintro rfl
  cases hf.unique hp.defines hr
  rcases hearlier with hlt | ⟨-, hlt⟩ <;> exact Nat.lt_irrefl _ hlt

theorem virtualDef?_apply (h : f.SoundAt (b, k)) (hf : f.SingleAssignment)
    (hi : f.instruction? b k = some i) :
    ((f.renamesAt (b, k)).apply i).virtualDef? = i.virtualDef? :=
  Renames.virtualDef?_apply fun _ hr => h.lookup_eq_none hf ⟨i, hi, hr⟩

theorem ready_uses (h : f.SoundAt (b, k)) (hf : f.SingleAssignment)
    (hi : f.instruction? b k = some i) :
    ∀ o ∈ ((f.renamesAt (b, k)).apply i).uses, o.Ready f (b, k) := by
  intro o ho
  rw [Instruction.uses_apply] at ho
  obtain ⟨o', ho', rfl⟩ := List.mem_map.mp ho
  exact h.sound.applyOperand (hf.ready hi ho')

theorem renamedAt {entry : RegId × Source} (h : f.SoundAt (b, k)) (hf : f.SingleAssignment)
    (hdrop : f.Dropped (b, k) entry) : f.RenamedAt (b, k) entry := by
  obtain ⟨i, hi, hentry⟩ := hdrop
  refine ⟨⟨i, hi, hentry⟩, ⟨i, hi, ?_⟩, h.known.ready_source hentry⟩
  rw [← h.virtualDef?_apply hf hi]
  exact (Known.redundant?_cases hentry).1

theorem succ (h : f.SoundAt (b, k)) (hf : f.SingleAssignment) : f.SoundAt (b, k + 1) := by
  have hbefore : ∀ p, Earlier p (b, k) → Earlier p (b, k + 1) := by
    rintro p (hlt | ⟨heq, hlt⟩)
    · exact .inl hlt
    · exact .inr ⟨heq, Nat.lt_succ_of_lt hlt⟩
  have hrenames : ∀ entry ∈ (f.renamesAt (b, k)).entries,
      ∃ p, Earlier p (b, k + 1) ∧ f.RenamedAt p entry := by
    intro entry hentry
    obtain ⟨p, hp, hrenamed⟩ := h.renames entry hentry
    exact ⟨p, hbefore p hp, hrenamed⟩
  have hknown := h.known.of_dominates (f.dominates_succ b k)
  cases hi : f.instruction? b k with
  | none =>
    obtain ⟨hkn, hrs⟩ := progress_of_none hi
    exact ⟨hrs ▸ hrenames, hkn ▸ hknown⟩
  | some i =>
    cases hredundant :
      (f.knownAt (b, k)).redundant? f.definitions ((f.renamesAt (b, k)).apply i) with
    | some entry =>
      have hdrop : f.Dropped (b, k) entry := ⟨i, hi, hredundant⟩
      obtain ⟨hkn, hrs⟩ := progress_of_drop hdrop
      refine ⟨fun entry' hentry' => ?_, hkn ▸ hknown⟩
      rw [hrs] at hentry'
      rcases List.mem_cons.mp hentry' with rfl | hentry'
      · exact ⟨(b, k), .inr ⟨rfl, Nat.lt_succ_self k⟩, h.renamedAt hf hdrop⟩
      · exact hrenames entry' hentry'
    | none =>
      obtain ⟨hkn, hrs⟩ := progress_of_keep hi hredundant
      refine ⟨hrs ▸ hrenames, ?_⟩
      rw [hkn]
      refine h.known.after (h.ready_uses hf hi) fun r hr p hp => ?_
      rw [h.virtualDef?_apply hf hi] at hr
      have hdefines : f.Defines (b, k) r := ⟨i, hi, hr⟩
      cases hf.unique hp hdefines
      exact f.dominates_succ b k

theorem zero (h : ∀ entry ∈ (f.renamesBefore b).entries, ∃ p, p.1 < b ∧ f.RenamedAt p entry) :
    f.SoundAt (b, 0) := by
  refine ⟨fun entry hentry => ?_, ?_⟩
  · obtain ⟨p, hlt, hp⟩ := h entry hentry
    exact ⟨p, .inl hlt, hp⟩
  · rw [knownAt_zero]
    exact ⟨by simp, by simp⟩

theorem of_zero (h : f.SoundAt (b, 0)) (hf : f.SingleAssignment) (k : Nat) : f.SoundAt (b, k) := by
  induction k with
  | zero => exact h
  | succ k ih => exact ih.succ hf

end SoundAt

/-- **The walk of the simplifier is sound at every point.** -/
theorem SingleAssignment.soundAt (hf : f.SingleAssignment) (x : Point) : f.SoundAt x := by
  obtain ⟨b, k⟩ := x
  suffices hblock : f.SoundAt (b, 0) from hblock.of_zero hf k
  induction b with
  | zero => exact .zero (by simp [renamesBefore])
  | succ b ih =>
    refine .zero fun entry hentry => ?_
    obtain ⟨p, hp, hrenamed⟩ := (ih.of_zero hf (f.blockLength b)).renames entry hentry
    refine ⟨p, ?_, hrenamed⟩
    rcases hp with hlt | ⟨heq, -⟩
    · exact Nat.lt_succ_of_lt hlt
    · exact heq ▸ Nat.lt_succ_self b

/-- The register is renamed in the end. -/
def IsRenamed (f : Function) (r : RegId) : Prop := ∃ source, (r, source) ∈ f.allRenames.entries

theorem SingleAssignment.renamedAt_of_mem (hf : f.SingleAssignment) {entry : RegId × Source}
    (h : entry ∈ f.allRenames.entries) : ∃ p, f.RenamedAt p entry := by
  obtain ⟨p, -, hp⟩ := (hf.soundAt (f.blocks.length, 0)).renames entry h
  exact ⟨p, hp⟩

theorem SingleAssignment.sound_allRenames (hf : f.SingleAssignment) : f.allRenames.Sound f :=
  (hf.soundAt (f.blocks.length, 0)).sound

/-! ## The end of a chain -/

end Function

theorem countP_lt_countP {α : Type} {P Q : α → Bool} {l : List α} {a : α}
    (h : ∀ c ∈ l, P c = true → Q c = true) (ha : a ∈ l) (hP : P a = false) (hQ : Q a = true) :
    l.countP P < l.countP Q := by
  obtain ⟨l₁, l₂, rfl⟩ := List.append_of_mem ha
  have h₁ : l₁.countP P ≤ l₁.countP Q := List.countP_mono_left fun c hc => h c (by simp [hc])
  have h₂ : l₂.countP P ≤ l₂.countP Q := List.countP_mono_left fun c hc => h c (by simp [hc])
  simp only [List.countP_append, List.countP_cons, hP, hQ, Bool.false_eq_true, if_true, if_false]
  omega

namespace Function

open Classical in
/-- How many registers are renamed that are defined before the point. -/
noncomputable def renamedBefore (f : Function) (x : Point) : Nat :=
  f.allRenames.entries.countP fun entry => decide (∃ p, f.Defines p entry.1 ∧ f.Dominates p x)

theorem SingleAssignment.renamedBefore_lt (hf : f.SingleAssignment) (hx : f.Arrives x)
    {entry : RegId × Source} (hentry : entry ∈ f.allRenames.entries) (hp : f.Defines p entry.1)
    (hdom : f.Dominates p x) : f.renamedBefore p < f.renamedBefore x := by
  classical
  refine countP_lt_countP (a := entry) (fun c _ hc => ?_) hentry ?_ ?_
  · obtain ⟨q, hq, hqp⟩ := of_decide_eq_true hc
    exact decide_eq_true ⟨q, hq, hqp.trans hdom⟩
  · refine decide_eq_false ?_
    rintro ⟨q, hq, hqp⟩
    cases hf.unique hq hp
    exact (hx.of_dominates hdom).not_dominates_self hqp
  · exact decide_eq_true ⟨p, hp, hdom⟩

theorem SingleAssignment.follow_not_renamed (hf : f.SingleAssignment) (hx : f.Arrives x)
    (hsource : source.Ready f x) {n : Nat} (hn : f.renamedBefore x ≤ n) :
    ¬ f.IsRenamed (f.allRenames.follow n source).id := by
  -- Each renaming leads to a definition further up, with fewer renamed registers above it.
  induction n generalizing x source with
  | zero =>
    rintro ⟨next, hnext⟩
    rw [Renames.follow_zero] at hnext
    obtain ⟨p, hp, -⟩ := hf.sound_allRenames _ hnext
    have hlt := hf.renamedBefore_lt hx hnext hp (hsource.available p hp)
    omega
  | succ n ih =>
    cases source with
    | parameter r =>
      rintro ⟨next, hnext⟩
      obtain ⟨p, hp, -⟩ := hf.sound_allRenames _ hnext
      exact hsource p hp
    | virtualReg r =>
      rw [Renames.follow]
      split
      · next next hnext =>
        have hmem := mem_of_lookup_eq_some hnext
        obtain ⟨p, hp, hready⟩ := hf.sound_allRenames _ hmem
        have hlt := hf.renamedBefore_lt hx hmem hp (hsource p hp)
        exact ih (hx.of_dominates (hsource p hp)) hready (by omega)
      · next hnone =>
        rintro ⟨next, hnext⟩
        simpa [Source.id] using List.lookup_eq_none_iff.mp hnone _ hnext

/-- **The register at the end of a chain of renamings is not renamed.** -/
theorem SingleAssignment.resolve_not_renamed (hf : f.SingleAssignment) (hx : f.Arrives x)
    (hsource : source.Ready f x) : ¬ f.IsRenamed (f.allRenames.resolve source).id :=
  hf.follow_not_renamed hx hsource List.countP_le_length

end Function

end Retarget.Machine
