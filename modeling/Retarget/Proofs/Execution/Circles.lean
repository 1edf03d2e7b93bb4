import Retarget.Lowering.Module
import Retarget.Proofs.Execution.Availability
import Retarget.Proofs.Execution.Chains
import Retarget.Target.AArch64

/-!
# Circles of renamings

The simplifier renames a register only if it has a single definition, and then drops that
definition.  A computation that is repeated was kept, so a renaming to it leads nowhere further.
What a load reads back was stored before, but need not be defined before.  So a circle of renamings
is closed by a load that reads back the register it defines (`LoadsItself`), and by nothing else:
without such a load every chain ends and the optimizer comes to an end, with one it does not
(`optimized_ends_iff`).  Where a register is defined before it is stored, there is none
(`StoresBehind.not_loadsItself`).
-/

namespace Retarget

theorem pair_sublist {α : Type} {l : List α} {a c : α} {m n : Nat} (ha : l[m]? = some a)
    (hc : l[n]? = some c) (h : m < n) : [a, c].Sublist l := by
  have hfirst : a ∈ l.take n :=
    List.mem_of_getElem? (i := m) (by rw [List.getElem?_take, if_pos h, ha])
  have hsecond : c ∈ l.drop n :=
    List.mem_of_getElem? (i := 0) (by rw [List.getElem?_drop, Nat.add_zero, hc])
  rw [← List.take_append_drop n l]
  exact (List.singleton_sublist.mpr hfirst).append (List.singleton_sublist.mpr hsecond)

theorem sublist_flatMap {α β : Type} (g : α → List β) {l₁ l₂ : List α} (h : l₁.Sublist l₂) :
    (l₁.flatMap g).Sublist (l₂.flatMap g) := by
  induction h with
  | slnil => exact .slnil
  | cons a _ ih => exact ih.trans (List.sublist_append_right _ _)
  | cons_cons a _ ih => exact (List.Sublist.refl _).append ih

namespace Machine

variable {f : Function} {i j : Instruction} {b k : Nat} {p q x : Point} {r dest : RegId}
  {source : Source} {entry : RegId × Source}

/-! ## The order of points -/

theorem Earlier.trans (hpq : Earlier p q) (hqx : Earlier q x) : Earlier p x := by
  unfold Earlier at *
  omega

theorem Earlier.irrefl (x : Point) : ¬ Earlier x x := by
  simp [Earlier]

theorem earlier_or (p q : Point) : Earlier p q ∨ p = q ∨ Earlier q p := by
  obtain ⟨b, k⟩ := p
  obtain ⟨b', k'⟩ := q
  simp only [Earlier, Prod.mk.injEq]
  omega

theorem earlier_succ_iff : Earlier p (b, k + 1) ↔ Earlier p (b, k) ∨ p = (b, k) := by
  obtain ⟨b', k'⟩ := p
  simp only [Earlier, Prod.mk.injEq]
  omega

theorem earlier_succ (b k : Nat) : Earlier (b, k) (b, k + 1) :=
  earlier_succ_iff.mpr (.inr rfl)

namespace Function

theorem lt_blockLength (h : f.instruction? b k = some i) : k < f.blockLength b := by
  obtain ⟨block, hblock, hi⟩ := Option.bind_eq_some_iff.mp h
  rw [blockLength, hblock]
  exact (List.getElem?_eq_some_iff.mp hi).1

/-- Up to the start of a block come the points up to the end of the block before it. -/
theorem earlier_end_iff (h : f.instruction? p.1 p.2 = some i) :
    Earlier p (b + 1, 0) ↔ Earlier p (b, f.blockLength b) := by
  have hlt := lt_blockLength h
  obtain ⟨b', k'⟩ := p
  simp only [Earlier] at hlt ⊢
  constructor
  · rintro (hb | ⟨-, hk⟩)
    · rcases Nat.lt_or_eq_of_le (Nat.le_of_lt_succ hb) with hb | rfl
      · exact .inl hb
      · exact .inr ⟨rfl, hlt⟩
    · exact absurd hk (Nat.not_lt_zero _)
  · rintro (hb | ⟨rfl, -⟩)
    · exact .inl (Nat.lt_succ_of_lt hb)
    · exact .inl (Nat.lt_succ_self _)

/-- What holds at the entry, and of the points that follow in a block and from the end of a block
to the next one, holds of every point. -/
theorem points_induction {P : Point → Prop} (f : Function) (entry : P (0, 0))
    (step : ∀ b k, P (b, k) → P (b, k + 1))
    (block : ∀ b, P (b, f.blockLength b) → P (b + 1, 0)) (x : Point) : P x := by
  have hinside : ∀ {b}, P (b, 0) → ∀ k, P (b, k) := by
    intro b hzero k
    induction k with
    | zero => exact hzero
    | succ k ih => exact step b k ih
  obtain ⟨b, k⟩ := x
  refine hinside ?_ k
  induction b with
  | zero => exact entry
  | succ b ih => exact block b (hinside ih _)

/-! ## Single definitions -/

theorem sublist_instructions (hi : f.instruction? p.1 p.2 = some i)
    (hj : f.instruction? q.1 q.2 = some j) (h : Earlier p q) :
    [i, j].Sublist f.instructions := by
  obtain ⟨block, hblock, hi⟩ := Option.bind_eq_some_iff.mp hi
  obtain ⟨block', hblock', hj⟩ := Option.bind_eq_some_iff.mp hj
  rcases h with hlt | ⟨heq, hlt⟩
  · have hblocks := sublist_flatMap (·.instructions) (pair_sublist hblock hblock' hlt)
    rw [List.flatMap_cons, List.flatMap_singleton] at hblocks
    exact ((List.singleton_sublist.mpr (List.mem_of_getElem? hi)).append
      (List.singleton_sublist.mpr (List.mem_of_getElem? hj))).trans hblocks
  · rw [heq, hblock'] at hblock
    cases hblock
    have hblocks := sublist_flatMap (·.instructions)
      (List.singleton_sublist.mpr (List.mem_of_getElem? hblock'))
    rw [List.flatMap_singleton] at hblocks
    exact (pair_sublist hi hj hlt).trans hblocks

/-- The definition at the point is the only one of the register. -/
structure DefinesOnce (f : Function) (p : Point) (r : RegId) : Prop where
  defines : f.Defines p r
  count : f.definitions.count r = 1

theorem DefinesOnce.unique (h : f.DefinesOnce p r) (hq : f.Defines q r) : p = q := by
  have htwice : ∀ {p q : Point}, f.Defines p r → f.Defines q r → ¬ Earlier p q := by
    rintro p q ⟨i, hi, hri⟩ ⟨j, hj, hrj⟩ hlt
    have hsub := (sublist_instructions hi hj hlt).filterMap Instruction.virtualDef?
    rw [List.filterMap_cons_some hri, List.filterMap_cons_some hrj, List.filterMap_nil] at hsub
    have hcount := hsub.count_le r
    rw [List.count_cons_self, List.count_cons_self, List.count_nil] at hcount
    have hone : (f.instructions.filterMap Instruction.virtualDef?).count r = 1 := h.count
    omega
  rcases earlier_or p q with hlt | heq | hlt
  · exact absurd hlt (htwice h.defines hq)
  · exact heq
  · exact absurd hlt (htwice hq h.defines)

end Function

theorem Instruction.count_of_singleDefinition? {defs : List RegId}
    (h : i.singleDefinition? defs = some dest) : defs.count dest = 1 :=
  eq_of_beq (Option.filter_eq_some_iff.mp h).2

theorem Known.count_of_expression? {defs : List RegId} {e : Expression}
    (h : expression? defs i = some (dest, e)) : defs.count dest = 1 := by
  obtain ⟨_, -, h⟩ := Option.bind_eq_some_iff.mp h
  obtain ⟨dest', hdest, h⟩ := Option.bind_eq_some_iff.mp h
  obtain ⟨d, -, h⟩ := Option.bind_eq_some_iff.mp h
  obtain ⟨_, -, h⟩ := Option.bind_eq_some_iff.mp h
  cases h
  exact Instruction.count_of_singleDefinition? hdest

theorem Known.count_of_redundant? {kn : Known} {defs : List RegId}
    (h : kn.redundant? defs i = some (dest, source)) : defs.count dest = 1 := by
  rw [redundant?] at h
  split at h
  · cases h
  · split at h
    · obtain ⟨dest', hdest, h⟩ := Option.bind_eq_some_iff.mp h
      obtain ⟨place, -, h⟩ := Option.bind_eq_some_iff.mp h
      obtain ⟨value, -, h⟩ := Option.bind_eq_some_iff.mp h
      obtain ⟨_, -, h⟩ := Option.bind_eq_some_iff.mp h
      obtain ⟨source', -, h⟩ := Option.bind_eq_some_iff.mp h
      cases h
      exact Instruction.count_of_singleDefinition? hdest
    · obtain ⟨⟨dest', e⟩, he, h⟩ := Option.bind_eq_some_iff.mp h
      obtain ⟨earlier, -, h⟩ := Option.bind_eq_some_iff.mp h
      cases h
      exact count_of_expression? he

/-! ## The walk -/

namespace Function

/-- The instruction at the point stays. -/
def Stays (f : Function) (p : Point) : Prop := ∀ entry, ¬ f.Dropped p entry

/-- Where the walk has its renamings and its known computations from: it dropped the only definition
of a renamed register, and it kept the only definition of a register that holds a computation. -/
structure Traced (f : Function) (x : Point) : Prop where
  renames : ∀ entry ∈ (f.renamesAt x).entries,
    ∃ p, Earlier p x ∧ f.Dropped p entry ∧ f.DefinesOnce p entry.1
  expressions : ∀ entry ∈ (f.knownAt x).expressions,
    ∃ p d, Earlier p x ∧ f.Stays p ∧ f.DefinesOnce p d ∧ entry.2 = .virtualReg d

namespace Traced

theorem lookup_eq_none (h : f.Traced x) (hr : f.Defines x r) :
    (f.renamesAt x).entries.lookup r = none := by
  rw [List.lookup_eq_none_iff]
  intro entry hentry
  obtain ⟨p, hearlier, -, honce⟩ := h.renames entry hentry
  rw [bne_iff_ne]
  rintro rfl
  cases honce.unique hr
  exact Earlier.irrefl _ hearlier

theorem virtualDef?_apply (h : f.Traced (b, k)) (hi : f.instruction? b k = some i) :
    ((f.renamesAt (b, k)).apply i).virtualDef? = i.virtualDef? :=
  Renames.virtualDef?_apply fun _ hr => h.lookup_eq_none ⟨i, hi, hr⟩

theorem definesOnce (h : f.Traced (b, k)) (hdrop : f.Dropped (b, k) entry) :
    f.DefinesOnce (b, k) entry.1 := by
  obtain ⟨i, hi, hentry⟩ := hdrop
  refine ⟨⟨i, hi, ?_⟩, Known.count_of_redundant? hentry⟩
  rw [← h.virtualDef?_apply hi]
  exact (Known.redundant?_cases hentry).1

theorem succ (h : f.Traced (b, k)) : f.Traced (b, k + 1) := by
  have hrenames : ∀ entry ∈ (f.renamesAt (b, k)).entries,
      ∃ p, Earlier p (b, k + 1) ∧ f.Dropped p entry ∧ f.DefinesOnce p entry.1 := by
    intro entry hentry
    obtain ⟨p, hp, hrest⟩ := h.renames entry hentry
    exact ⟨p, hp.trans (earlier_succ b k), hrest⟩
  have hexpressions : ∀ entry ∈ (f.knownAt (b, k)).expressions, ∃ p d,
      Earlier p (b, k + 1) ∧ f.Stays p ∧ f.DefinesOnce p d ∧ entry.2 = .virtualReg d := by
    intro entry hentry
    obtain ⟨p, d, hp, hrest⟩ := h.expressions entry hentry
    exact ⟨p, d, hp.trans (earlier_succ b k), hrest⟩
  cases hi : f.instruction? b k with
  | none =>
    obtain ⟨hkn, hrs⟩ := progress_of_none hi
    exact ⟨hrs ▸ hrenames, hkn ▸ hexpressions⟩
  | some i =>
    cases hredundant :
      (f.knownAt (b, k)).redundant? f.definitions ((f.renamesAt (b, k)).apply i) with
    | some entry =>
      have hdrop : f.Dropped (b, k) entry := ⟨i, hi, hredundant⟩
      obtain ⟨hkn, hrs⟩ := progress_of_drop hdrop
      refine ⟨fun entry' hentry' => ?_, hkn ▸ hexpressions⟩
      rw [hrs] at hentry'
      rcases List.mem_cons.mp hentry' with rfl | hentry'
      · exact ⟨(b, k), earlier_succ b k, hdrop, h.definesOnce hdrop⟩
      · exact hrenames entry' hentry'
    | none =>
      obtain ⟨hkn, hrs⟩ := progress_of_keep hi hredundant
      have hstays : f.Stays (b, k) := by
        rintro entry ⟨i', hi', hentry⟩
        cases hi.symm.trans hi'
        cases hredundant.symm.trans hentry
      refine ⟨hrs ▸ hrenames, fun entry hentry => ?_⟩
      rw [hkn] at hentry
      rcases Known.mem_expressions_after hentry with hold | ⟨d, hexpr, hsource⟩
      · exact hexpressions entry hold
      · refine ⟨(b, k), d, earlier_succ b k, hstays, ⟨⟨i, hi, ?_⟩, ?_⟩, hsource⟩
        · rw [← h.virtualDef?_apply hi]
          exact (Known.expression?_eq_some hexpr).1
        · exact Known.count_of_expression? hexpr

end Traced

/-- **The walk is traced at every point.** -/
theorem traced (f : Function) (x : Point) : f.Traced x := by
  induction x using points_induction f with
  | entry => exact ⟨by simp [renamesAt, renamesBefore, progressFrom], by simp [knownAt_zero]⟩
  | step b k ih => exact ih.succ
  | block b ih =>
    refine ⟨fun entry hentry => ?_, by simp [knownAt_zero]⟩
    obtain ⟨p, hp, hdrop, honce⟩ := ih.renames entry hentry
    obtain ⟨i, hi, -⟩ := id hdrop
    exact ⟨p, (earlier_end_iff hi).mpr hp, hdrop, honce⟩

/-! ## The load that closes a circle -/

/-- The load at the point is dropped, and what it reads back is found in the register that it
defines. -/
def LoadsItself (f : Function) (x : Point) : Prop :=
  ∃ i dest source, f.instruction? x.1 x.2 = some i ∧ i.isGeneric .load = true ∧
    f.Dropped x (dest, source) ∧ (f.renamesAt x).resolve source = .virtualReg dest

/-- A computation that is repeated does not lead to the register it is dropped for. -/
theorem loadsItself_iff (hdrop : f.Dropped (b, k) entry) :
    f.LoadsItself (b, k) ↔ (f.renamesAt (b, k)).resolve entry.2 = .virtualReg entry.1 := by
  have htraced := f.traced (b, k)
  obtain ⟨i, hi, hentry⟩ := id hdrop
  constructor
  · rintro ⟨i', dest, source, hi', -, ⟨i'', hi'', hentry'⟩, hresolve⟩
    cases hi.symm.trans hi''
    cases hentry.symm.trans hentry'
    exact hresolve
  · intro hresolve
    rcases (Known.redundant?_cases hentry).2 with ⟨hload, -⟩ | ⟨op, d, -, -, -, hmem⟩
    · exact ⟨i, entry.1, entry.2, hi, hload, hdrop, hresolve⟩
    · exfalso
      obtain ⟨p, d, hp, hstays, honce, hsource⟩ := htraced.expressions _ hmem
      have hnone : (f.renamesAt (b, k)).entries.lookup d = none := by
        rw [List.lookup_eq_none_iff]
        intro renamed hrenamed
        obtain ⟨q, -, hdropped, honce'⟩ := htraced.renames renamed hrenamed
        rw [bne_iff_ne]
        rintro rfl
        cases honce.unique honce'.defines
        exact hstays _ hdropped
      rw [show entry.2 = .virtualReg d from hsource, Renames.resolve,
        Renames.follow_of_lookup_eq_none hnone] at hresolve
      cases hresolve
      cases honce.unique (htraced.definesOnce hdrop).defines
      exact Earlier.irrefl _ hp

/-- **The renamings up to a point go round in a circle exactly when a load before it closes one.** -/
theorem acyclic_renamesAt_iff (f : Function) (x : Point) :
    (f.renamesAt x).Acyclic ↔ ∀ p, Earlier p x → ¬ f.LoadsItself p := by
  induction x using points_induction f with
  | entry =>
    refine iff_of_true (fun source => ?_) fun p hp => ?_
    · refine Renames.ends_of_next?_eq_none ?_
      cases source <;> rfl
    · simp [Earlier] at hp
  | step b k ih =>
    have hsplit : (∀ p, Earlier p (b, k + 1) → ¬ f.LoadsItself p) ↔
        (f.renamesAt (b, k)).Acyclic ∧ ¬ f.LoadsItself (b, k) := by
      rw [ih]
      constructor
      · exact fun h => ⟨fun p hp => h p (hp.trans (earlier_succ b k)), h _ (earlier_succ b k)⟩
      · rintro ⟨hbefore, hhere⟩ p hp
        rcases earlier_succ_iff.mp hp with hp | rfl
        · exact hbefore p hp
        · exact hhere
    rw [hsplit]
    by_cases hdrop : ∃ entry, f.Dropped (b, k) entry
    · obtain ⟨entry, hdrop⟩ := hdrop
      have hfresh := (f.traced (b, k)).lookup_eq_none ((f.traced (b, k)).definesOnce hdrop).defines
      rw [(progress_of_drop hdrop).2, loadsItself_iff hdrop]
      constructor
      · intro h
        have hbefore : (f.renamesAt (b, k)).Acyclic :=
          fun source => Renames.ends_of_ends_insert hfresh (h source)
        exact ⟨hbefore, (Renames.acyclic_insert_iff hfresh hbefore).mp h⟩
      · rintro ⟨hbefore, hne⟩
        exact (Renames.acyclic_insert_iff hfresh hbefore).mpr hne
    · have hsame : f.renamesAt (b, k + 1) = f.renamesAt (b, k) := by
        cases hi : f.instruction? b k with
        | none => exact (progress_of_none hi).2
        | some i =>
          refine (progress_of_keep hi (Option.eq_none_iff_forall_ne_some.mpr fun entry hentry =>
            ?_)).2
          exact hdrop ⟨entry, i, hi, hentry⟩
      rw [hsame]
      refine (and_iff_left ?_).symm
      rintro ⟨-, dest, source, -, -, hdropped, -⟩
      exact hdrop ⟨_, hdropped⟩
  | block b ih =>
    rw [show f.renamesAt (b + 1, 0) = f.renamesAt (b, f.blockLength b) from rfl, ih]
    refine forall_congr' fun p => ⟨fun h hp hload => ?_, fun h hp hload => ?_⟩
    · obtain ⟨i, -, -, hi, -⟩ := id hload
      exact h ((earlier_end_iff hi).mp hp) hload
    · obtain ⟨i, -, -, hi, -⟩ := id hload
      exact h ((earlier_end_iff hi).mpr hp) hload

/-! ## Registers that are defined before they are stored -/

/-- The definitions of the source come before the point. -/
def Behind (f : Function) (x : Point) (source : Source) : Prop :=
  ∀ r, source = .virtualReg r → ∀ p, f.Defines p r → Earlier p x

/-- What an instruction stores is defined before, in the order of the blocks. -/
def StoresBehind (f : Function) : Prop :=
  ∀ x i o source, f.instruction? x.1 x.2 = some i → i.isStore = true → i.operand? 1 = some o →
    Source.of? o = some source → f.Behind x source

theorem Behind.of_earlier (h : f.Behind p source) (hpx : Earlier p x) : f.Behind x source :=
  fun r hr q hq => (h r hr q hq).trans hpx

theorem Behind.follow (h : f.Behind x source)
    (hrenames : ∀ entry ∈ (f.renamesAt x).entries, ∃ p, f.DefinesOnce p entry.1 ∧
      f.Behind p entry.2) (n : Nat) : f.Behind x ((f.renamesAt x).follow n source) := by
  induction n generalizing source with
  | zero => rwa [Renames.follow_zero]
  | succ n ih =>
    cases source with
    | parameter r => exact h
    | virtualReg r =>
      rw [Renames.follow]
      split
      · next next hnext =>
        obtain ⟨p, honce, hbehind⟩ := hrenames _ (mem_of_lookup_eq_some hnext)
        exact ih (hbehind.of_earlier (h r rfl p honce.defines))
      · exact h

end Function

/-- A renamed operand is found at the end of the chain of its register. -/
theorem Renames.of?_applyOperand {rs : Renames} {o : Operand}
    (h : Source.of? (rs.applyOperand o) = some source) :
    ∃ before, Source.of? o = some before ∧ source = rs.resolve before := by
  cases hkind : o.kind with
  | virtualReg r =>
    refine ⟨.virtualReg r, by rw [Source.of?, hkind], ?_⟩
    rw [applyOperand, hkind] at h
    dsimp only at h
    generalize rs.resolve (.virtualReg r) = s at h
    cases s <;> exact (Option.some.inj h).symm
  | parameter r =>
    refine ⟨.parameter r, by rw [Source.of?, hkind], ?_⟩
    rw [applyOperand, hkind] at h
    dsimp only at h
    rw [Source.of?, hkind] at h
    rw [resolve, follow_of_next?_eq_none rfl]
    exact (Option.some.inj h).symm
  | _ => simp [applyOperand, Source.of?, Operand.setReg, Operand.withKind, hkind] at h

namespace Function

/-- What the walk has renamed is found in registers that were defined before, and so is what it
knows to be in the frame. -/
structure WalksBehind (f : Function) (x : Point) : Prop where
  renames : ∀ entry ∈ (f.renamesAt x).entries, ∃ p, f.DefinesOnce p entry.1 ∧ f.Behind p entry.2
  slots : ∀ entry ∈ (f.knownAt x).slots, ∀ source, Source.of? entry.2 = some source →
    f.Behind x source

namespace WalksBehind

theorem behind_dropped (h : f.WalksBehind (b, k)) (hdrop : f.Dropped (b, k) entry) :
    f.Behind (b, k) entry.2 := by
  obtain ⟨i, -, hentry⟩ := hdrop
  rcases (Known.redundant?_cases hentry).2 with
    ⟨-, place, value, -, hmem, -, hsource⟩ | ⟨op, d, -, -, -, hmem⟩
  · exact h.slots _ hmem _ hsource
  · obtain ⟨p, d, hp, -, honce, hsource⟩ := (f.traced (b, k)).expressions _ hmem
    rintro r hr q hq
    cases hr.symm.trans hsource
    exact honce.unique hq ▸ hp

theorem succ (h : f.WalksBehind (b, k)) (hstores : f.StoresBehind) :
    f.WalksBehind (b, k + 1) := by
  have hslots : ∀ entry ∈ (f.knownAt (b, k)).slots, ∀ source,
      Source.of? entry.2 = some source → f.Behind (b, k + 1) source :=
    fun entry hentry source hsource =>
      (h.slots entry hentry source hsource).of_earlier (earlier_succ b k)
  cases hi : f.instruction? b k with
  | none =>
    obtain ⟨hkn, hrs⟩ := progress_of_none hi
    exact ⟨hrs ▸ h.renames, hkn ▸ hslots⟩
  | some i =>
    cases hredundant :
      (f.knownAt (b, k)).redundant? f.definitions ((f.renamesAt (b, k)).apply i) with
    | some entry =>
      have hdrop : f.Dropped (b, k) entry := ⟨i, hi, hredundant⟩
      obtain ⟨hkn, hrs⟩ := progress_of_drop hdrop
      refine ⟨fun entry' hentry' => ?_, hkn ▸ hslots⟩
      rw [hrs] at hentry'
      rcases List.mem_cons.mp hentry' with rfl | hentry'
      · exact ⟨(b, k), (f.traced (b, k)).definesOnce hdrop, h.behind_dropped hdrop⟩
      · exact h.renames entry' hentry'
    | none =>
      obtain ⟨hkn, hrs⟩ := progress_of_keep hi hredundant
      refine ⟨hrs ▸ h.renames, fun entry hentry source hsource => ?_⟩
      rw [hkn] at hentry
      rcases (Known.mem_slots_after hentry).2 with ⟨hold, -⟩ | ⟨hstore, -, hvalue, -⟩
      · exact hslots entry hold source hsource
      · -- what is stored is renamed first, which leads further back
        obtain ⟨o, ho, hrenamed⟩ : ∃ o, i.operand? 1 = some o ∧
            (f.renamesAt (b, k)).applyOperand o = entry.2 := by
          rw [Instruction.operand?, Renames.apply, Instruction.withOperands,
            List.getElem?_map] at hvalue
          exact Option.map_eq_some_iff.mp hvalue
        rw [← hrenamed] at hsource
        obtain ⟨before, hbefore, rfl⟩ := Renames.of?_applyOperand hsource
        have hbehind := hstores (b, k) i o before hi hstore ho hbefore
        exact (hbehind.follow h.renames _).of_earlier (earlier_succ b k)

end WalksBehind

theorem StoresBehind.walksBehind (h : f.StoresBehind) (x : Point) : f.WalksBehind x := by
  induction x using points_induction f with
  | entry => exact ⟨by simp [renamesAt, renamesBefore, progressFrom], by simp [knownAt_zero]⟩
  | step b k ih => exact ih.succ h
  | block b ih => exact ⟨ih.renames, by simp [knownAt_zero]⟩

/-- **A function that stores only what it has defined before has no such load.** -/
theorem StoresBehind.not_loadsItself (h : f.StoresBehind) (x : Point) : ¬ f.LoadsItself x := by
  rintro ⟨i, dest, source, -, -, hdrop, hresolve⟩
  have hdefines := ((f.traced x).definesOnce hdrop).defines
  have hbehind : f.Behind x ((f.renamesAt x).resolve source) :=
    ((h.walksBehind x).behind_dropped hdrop).follow (h.walksBehind x).renames _
  exact Earlier.irrefl x (hbehind dest hresolve x hdefines)

/-! ## The end of the walk -/

theorem renames_eq (f : Function) : f.renames = f.allRenames := by
  have hupto : ∀ n, (f.blocks.take n).foldl
      (fun rs b => (simplifyFrom f.definitions {} rs b.instructions).1) {} = f.renamesBefore n ∨
      f.blocks.length < n := by
    intro n
    induction n with
    | zero => exact .inl rfl
    | succ n ih =>
      rcases ih with ih | hlt
      · cases hblock : f.blocks[n]? with
        | none => exact .inr (Nat.lt_succ_of_le (List.getElem?_eq_none_iff.mp hblock))
        | some block =>
          left
          rw [List.take_add_one, hblock, Option.toList_some, List.foldl_append, ih,
            ← remaining_fst f n 0, remaining_zero hblock]
          rfl
      · exact .inr (Nat.lt_succ_of_lt hlt)
  have hall := (hupto f.blocks.length).resolve_right (Nat.lt_irrefl _)
  rwa [List.take_length] at hall

/-- **The optimizer comes to an end exactly when no load closes a circle**: then every chain of
renamings ends, at every point and in the end. -/
theorem optimized_ends_iff (f : Function) :
    (∀ x, (f.renamesAt x).Acyclic) ∧ f.renames.Acyclic ∧ f.optimized = .ok f.optimize ↔
      ∀ x, ¬ f.LoadsItself x := by
  constructor
  · rintro ⟨-, hall, -⟩ x hload
    rw [renames_eq] at hall
    refine (f.acyclic_renamesAt_iff (f.blocks.length, 0)).mp hall x (.inl ?_) hload
    obtain ⟨i, -, -, hi, -⟩ := hload
    obtain ⟨block, hblock, -⟩ := Option.bind_eq_some_iff.mp hi
    exact (List.getElem?_eq_some_iff.mp hblock).1
  · intro hnone
    have hpoints : ∀ x, (f.renamesAt x).Acyclic :=
      fun x => (f.acyclic_renamesAt_iff x).mpr fun p _ => hnone p
    have hall : f.renames.Acyclic := f.renames_eq ▸ hpoints (f.blocks.length, 0)
    exact ⟨hpoints, hall, if_pos (Renames.isAcyclic_iff.mpr hall)⟩

/-- The temporary that is stored is the one that the load behind it defines. -/
def reloading : Ir.Module where
  name := "m"
  functions := [{
    name := "f"
    returnType := .i32
    parameters := []
    blocks := [
      { name := "entry"
        instructions := [.stackAlloc 1 "x" .i32, .store (.temp 0 .i32) (.temp 1 (.ptr .i32)),
          .load 0 (.temp 1 (.ptr .i32)) .i32, .ret (some (.temp 0 .i32))] }] }]

/-- Its machine code. -/
def reloadingCode : Function where
  name := "f"
  frame := ⟨[⟨⟨0⟩, 4⟩]⟩
  nextId := 2
  blocks := [⟨"entry", [
    .generic .store [.stack ⟨0⟩ 0 (.integer 32), .virtualReg 1 (.integer 32)],
    .generic .load [.virtualReg 1 (.integer 32), .stack ⟨0⟩ 0 (.integer 32)],
    .generic .ret [.virtualReg 1 (.integer 32)]]⟩]

/-- **A load that reads back the register it defines keeps the optimizer from coming to an end.** -/
theorem optimized_reloading : ∃ m, Lowering.lowerModule .aarch64 reloading = .ok m ∧
    m.functions = [reloadingCode] ∧ reloadingCode.LoadsItself (0, 1) ∧
    ¬ reloadingCode.renames.Acyclic ∧ reloadingCode.optimized = .error .endless := by
  have hlowered : (Lowering.lowerModule .aarch64 reloading).map (·.functions) =
      .ok [reloadingCode] := by decide +kernel
  obtain ⟨m, hm, hfunctions⟩ := map_eq_ok.mp hlowered
  have hcircle : ¬ reloadingCode.renames.isAcyclic := by decide +kernel
  refine ⟨m, hm, hfunctions, ⟨_, 1, .virtualReg 1, rfl, rfl, ⟨_, rfl, ?_⟩, rfl⟩, ?_, if_neg hcircle⟩
  · decide +kernel
  · rwa [← Renames.isAcyclic_iff]

end Function

end Machine

end Retarget
