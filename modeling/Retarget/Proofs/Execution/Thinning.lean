import Retarget.Proofs.Execution.Circles
import Retarget.Proofs.Execution.DeadCode
import Retarget.Proofs.Numbering.Lowering
import Retarget.Proofs.Shape.Passes

/-!
# What is left of the code

The optimizer drops definitions of virtual registers, in the walk over the blocks and in the sweeps
behind it, and renames what the other instructions read.  If no chain of renamings goes round in a
circle, a register that is renamed on the way is renamed to the same in the end, so all that happens
to an instruction that stays is that all renamings are applied to it (`thins_optimized`).
-/

namespace Retarget.Machine

variable {f g : Function} {rs : Renames} {source next : Source} {i : Instruction} {o : Operand}
  {ids : List RegId} {b k : Nat} {x : Point} {r : RegId} {entry entry' : RegId × Source}

/-! ## Thinned code -/

/-- Definitions of virtual registers may be left out of the code, and `φ` is applied to what stays. -/
inductive Thins (φ : Instruction → Instruction) : List Instruction → List Instruction → Prop
  | nil : Thins φ [] []
  | drop {i : Instruction} {is js : List Instruction} (hdef : i.virtualDef?.isSome)
    (h : Thins φ is js) : Thins φ (i :: is) js
  | keep {is js : List Instruction} (i : Instruction) (h : Thins φ is js) :
    Thins φ (i :: is) (φ i :: js)

namespace Thins

variable {φ : Instruction → Instruction} {is is' js js' ks : List Instruction}

theorem append (h : Thins φ is js) (h' : Thins φ is' js') : Thins φ (is ++ is') (js ++ js') := by
  induction h with
  | nil => exact h'
  | drop hdef _ ih => exact .drop hdef ih
  | keep i _ ih => exact .keep i ih

theorem reverse (h : Thins φ is js) : Thins φ is.reverse js.reverse := by
  induction h with
  | nil => exact .nil
  | @drop i is js hdef _ ih =>
    have hlast : Thins φ [i] [] := .drop hdef .nil
    rw [List.reverse_cons, ← List.append_nil js.reverse]
    exact ih.append hlast
  | keep i _ ih =>
    rw [List.reverse_cons, List.reverse_cons]
    exact ih.append (.keep i .nil)

theorem refl (is : List Instruction) : Thins id is is := by
  induction is with
  | nil => exact .nil
  | cons i is ih => exact .keep i ih

theorem trans (hφ : ∀ i, (φ i).virtualDef?.isSome → i.virtualDef?.isSome) (h : Thins φ is js)
    (h' : Thins id js ks) : Thins φ is ks := by
  induction h generalizing ks with
  | nil =>
    cases h'
    exact .nil
  | drop hdef _ ih => exact .drop hdef (ih h')
  | keep i _ ih =>
    cases h' with
    | drop hdef h' => exact .drop (hφ i hdef) (ih h')
    | keep _ h' => exact .keep i (ih h')

theorem filter {p : Instruction → Bool}
    (h : ∀ i ∈ is, p i = false → i.virtualDef?.isSome) : Thins id is (is.filter p) := by
  induction is with
  | nil => exact .nil
  | cons i is ih =>
    obtain ⟨hfirst, hrest⟩ := List.forall_mem_cons.mp h
    cases hp : p i with
    | true =>
      rw [List.filter_cons_of_pos hp]
      exact .keep i (ih hrest)
    | false =>
      rw [List.filter_cons_of_neg (by simp [hp])]
      exact .drop (hfirst hp) (ih hrest)

/-- What stays was there, and so was what stays of the code around it. -/
theorem exists_split {before behind : List Instruction} {j : Instruction}
    (h : Thins φ is (before ++ j :: behind)) : ∃ before' i behind', is = before' ++ i :: behind' ∧
      Thins φ before' before ∧ j = φ i ∧ Thins φ behind' behind := by
  generalize hjs : before ++ j :: behind = js at h
  induction h generalizing before with
  | nil => simp at hjs
  | @drop i is js hdef _ ih =>
    obtain ⟨before', i', behind', rfl, hbefore, hj, hbehind⟩ := ih hjs
    exact ⟨i :: before', i', behind', rfl, .drop hdef hbefore, hj, hbehind⟩
  | @keep is js i h ih =>
    cases before with
    | nil =>
      cases hjs
      exact ⟨[], i, is, rfl, .nil, rfl, h⟩
    | cons j' before =>
      cases hjs
      obtain ⟨before', i', behind', rfl, hbefore, hj, hbehind⟩ := ih rfl
      exact ⟨i :: before', i', behind', rfl, .keep i hbefore, hj, hbehind⟩

theorem exists_split_of_stays {before behind : List Instruction} {i : Instruction}
    (hi : i.virtualDef? = none) (h : Thins φ (before ++ i :: behind) js) :
    ∃ before' behind', js = before' ++ φ i :: behind' ∧ Thins φ before before' := by
  generalize his : before ++ i :: behind = is at h
  induction h generalizing before with
  | nil => simp at his
  | @drop j is js hdef _ ih =>
    cases before with
    | nil =>
      cases his
      rw [hi] at hdef
      cases hdef
    | cons j' before =>
      cases his
      obtain ⟨before', behind', rfl, hbefore⟩ := ih rfl
      exact ⟨before', behind', rfl, .drop hdef hbefore⟩
  | @keep is js j _ ih =>
    cases before with
    | nil =>
      cases his
      exact ⟨[], js, rfl, .nil⟩
    | cons j' before =>
      cases his
      obtain ⟨before', behind', rfl, hbefore⟩ := ih rfl
      exact ⟨φ j :: before', behind', rfl, .keep j hbefore⟩

theorem takeWhile {p : Instruction → Bool} (hφ : ∀ i, p (φ i) = p i)
    (hdrop : ∀ i, i.virtualDef?.isSome → p i) (h : Thins φ is js) :
    Thins φ (is.takeWhile p) (js.takeWhile p) := by
  induction h with
  | nil => exact .nil
  | @drop i is js hdef _ ih =>
    rw [List.takeWhile_cons_of_pos (hdrop i hdef)]
    exact .drop hdef ih
  | keep i _ ih =>
    rw [List.takeWhile_cons, List.takeWhile_cons, hφ]
    split
    · exact .keep i ih
    · exact .nil

theorem dropWhile {p : Instruction → Bool} (hφ : ∀ i, p (φ i) = p i)
    (hdrop : ∀ i, i.virtualDef?.isSome → p i) (h : Thins φ is js) :
    Thins φ (is.dropWhile p) (js.dropWhile p) := by
  induction h with
  | nil => exact .nil
  | @drop i is js hdef _ ih =>
    rw [List.dropWhile_cons_of_pos (hdrop i hdef)]
    exact ih
  | keep i h ih =>
    rw [List.dropWhile_cons, List.dropWhile_cons, hφ]
    split
    · exact ih
    · exact .keep i h

theorem countP_eq {p : Instruction → Bool} (hφ : ∀ i, p (φ i) = p i)
    (hdrop : ∀ i, i.virtualDef?.isSome → p i = false) (h : Thins φ is js) :
    js.countP p = is.countP p := by
  induction h with
  | nil => rfl
  | @drop i _ _ hdef _ ih => rw [List.countP_cons_of_neg (by simp [hdrop i hdef]), ih]
  | keep i _ ih => rw [List.countP_cons, List.countP_cons, hφ, ih]

theorem eq_map (h : Thins φ is js) (hall : ∀ i ∈ is, i.virtualDef? = none) : js = is.map φ := by
  induction h with
  | nil => rfl
  | drop hdef _ _ =>
    rw [(List.forall_mem_cons.mp hall).1] at hdef
    cases hdef
  | keep i _ ih => rw [List.map_cons, ih (List.forall_mem_cons.mp hall).2]

end Thins

/-! ## Renamings on the way and in the end -/

@[simp] theorem Renames.resolve_parameter (rs : Renames) (p : RegId) :
    rs.resolve (.parameter p) = .parameter p :=
  follow_of_next?_eq_none rfl _

theorem Renames.isVirtual_of_applyOperand (h : (rs.applyOperand o).kind = .virtualReg r) :
    ∃ r, o.kind = .virtualReg r := by
  obtain ⟨kind, ty, regClass⟩ := o
  cases kind with
  | virtualReg r => exact ⟨r, rfl⟩
  | _ => cases h

theorem Renames.isSome_virtualDef? (h : (rs.apply i).virtualDef?.isSome) :
    i.virtualDef?.isSome := by
  obtain ⟨r, hr⟩ := Option.isSome_iff_exists.mp h
  obtain ⟨d, hd, hkind⟩ := Instruction.virtualDef?_eq_some.mp hr
  rw [Instruction.def?_apply] at hd
  obtain ⟨o, ho, rfl⟩ := Option.map_eq_some_iff.mp hd
  obtain ⟨r', hr'⟩ := isVirtual_of_applyOperand hkind
  rw [Instruction.virtualDef?_eq_some.mpr ⟨o, ho, hr'⟩]
  rfl

theorem Renames.resolve_of_next? (h : rs.Ends source) (hnext : rs.next? source = some next) :
    rs.resolve next = rs.resolve source := by
  have hend := follow_of_next?_eq_none h.resolve 1
  rw [resolve, ← follow_of_next? hnext, follow_add]
  exact hend

namespace Function

theorem eq_of_mem_allRenames (h : entry ∈ f.allRenames.entries)
    (h' : entry' ∈ f.allRenames.entries) (heq : entry.1 = entry'.1) : entry = entry' := by
  have htraced := f.traced (f.blocks.length, 0)
  obtain ⟨p, -, ⟨i, hi, hentry⟩, honce⟩ := htraced.renames entry h
  obtain ⟨p', -, ⟨i', hi', hentry'⟩, honce'⟩ := htraced.renames entry' h'
  cases honce.unique (heq ▸ honce'.defines)
  cases hi.symm.trans hi'
  exact Option.some.inj (hentry.symm.trans hentry')

theorem next?_allRenames (hi : f.instruction? b k = some i)
    (h : (f.renamesAt (b, k)).next? source = some next) :
    f.allRenames.next? source = some next := by
  cases source with
  | parameter p => cases h
  | virtualReg r =>
    have hmem := renamesAt_subset_all hi (mem_of_lookup_eq_some h)
    cases hall : f.allRenames.entries.lookup r with
    | none => simpa using List.lookup_eq_none_iff.mp hall _ hmem
    | some next' =>
      cases eq_of_mem_allRenames hmem (mem_of_lookup_eq_some hall) rfl
      exact hall

theorem resolve_renamesAt (hacyclic : f.allRenames.Acyclic) (hi : f.instruction? b k = some i)
    (source : Source) :
    f.allRenames.resolve ((f.renamesAt (b, k)).resolve source) = f.allRenames.resolve source := by
  have hfollow : ∀ n, f.allRenames.resolve ((f.renamesAt (b, k)).follow n source) =
      f.allRenames.resolve source := by
    intro n
    induction n generalizing source with
    | zero => rw [Renames.follow_zero]
    | succ n ih =>
      rw [Renames.follow_succ]
      cases hnext : (f.renamesAt (b, k)).next? source with
      | none => rfl
      | some next =>
        rw [Option.map_some, Option.getD_some, ih,
          Renames.resolve_of_next? (hacyclic source) (next?_allRenames hi hnext)]
  exact hfollow _

end Function

/-! ## What renamings lead to -/

/-- Some operand of the function is the register. -/
def Function.Mentions (f : Function) (source : Source) : Prop :=
  ∃ i ∈ f.instructions, ∃ o ∈ i.operands, Source.of? o = some source

/-- Where a register is renamed, it is to what some renaming leads to. -/
theorem Renames.resolve_cases (rs : Renames) (source : Source) :
    rs.resolve source = source ∨ ∃ entry ∈ rs.entries, rs.resolve source = entry.2 := by
  have hfollow : ∀ n, rs.follow n source = source ∨
      ∃ entry ∈ rs.entries, rs.follow n source = entry.2 := by
    intro n
    induction n generalizing source with
    | zero => exact .inl (follow_zero _ _)
    | succ n ih =>
      cases source with
      | parameter p => exact .inl rfl
      | virtualReg r =>
        rw [follow]
        split
        · next next hnext =>
          have hmem := mem_of_lookup_eq_some hnext
          exact .inr ((ih next).elim (fun heq => ⟨_, hmem, heq⟩) id)
        · exact .inl rfl
  exact hfollow _

namespace Function

/-- What the walk renames registers to, and the registers whose values it finds in the frame, are
mentioned in the function. -/
structure SourcesMentioned (f : Function) (x : Point) : Prop where
  renames : ∀ entry ∈ (f.renamesAt x).entries, f.Mentions entry.2
  slots : ∀ entry ∈ (f.knownAt x).slots, ∀ source, Source.of? entry.2 = some source →
    f.Mentions source

theorem Defines.mentions {p : Point} (h : f.Defines p r) : f.Mentions (.virtualReg r) := by
  obtain ⟨i, hi, hr⟩ := h
  obtain ⟨d, hd, hkind⟩ := Instruction.virtualDef?_eq_some.mp hr
  rw [Instruction.def?] at hd
  split at hd
  · refine ⟨i, mem_of_instruction? hi, d, List.mem_of_mem_head? hd, ?_⟩
    rw [Source.of?, hkind]
  · cases hd

namespace SourcesMentioned

theorem dropped (h : f.SourcesMentioned (b, k)) (hdrop : f.Dropped (b, k) entry) :
    f.Mentions entry.2 := by
  obtain ⟨i, -, hentry⟩ := hdrop
  rcases (Known.redundant?_cases hentry).2 with
    ⟨-, place, value, -, hmem, -, hsource⟩ | ⟨op, d, -, -, -, hmem⟩
  · exact h.slots _ hmem _ hsource
  · obtain ⟨p, d, -, -, honce, hsource⟩ := (f.traced (b, k)).expressions _ hmem
    rw [show entry.2 = .virtualReg d from hsource]
    exact honce.defines.mentions

theorem succ (h : f.SourcesMentioned (b, k)) : f.SourcesMentioned (b, k + 1) := by
  cases hi : f.instruction? b k with
  | none =>
    obtain ⟨hkn, hrs⟩ := progress_of_none hi
    exact ⟨hrs ▸ h.renames, hkn ▸ h.slots⟩
  | some i =>
    cases hredundant :
      (f.knownAt (b, k)).redundant? f.definitions ((f.renamesAt (b, k)).apply i) with
    | some entry =>
      have hdrop : f.Dropped (b, k) entry := ⟨i, hi, hredundant⟩
      obtain ⟨hkn, hrs⟩ := progress_of_drop hdrop
      refine ⟨?_, hkn ▸ h.slots⟩
      rw [hrs]
      exact List.forall_mem_cons.mpr ⟨h.dropped hdrop, h.renames⟩
    | none =>
      obtain ⟨hkn, hrs⟩ := progress_of_keep hi hredundant
      refine ⟨hrs ▸ h.renames, fun entry hentry source hsource => ?_⟩
      rw [hkn] at hentry
      rcases (Known.mem_slots_after hentry).2 with ⟨hold, -⟩ | ⟨-, -, hvalue, -⟩
      · exact h.slots entry hold source hsource
      · -- what is stored is a renamed operand of the store
        rw [Instruction.operand?, Renames.apply, Instruction.withOperands,
          List.getElem?_map] at hvalue
        obtain ⟨o, ho, hrenamed⟩ := Option.map_eq_some_iff.mp hvalue
        rw [← hrenamed] at hsource
        obtain ⟨before, hbefore, rfl⟩ := Renames.of?_applyOperand hsource
        rcases (f.renamesAt (b, k)).resolve_cases before with heq | ⟨entry, hentry, heq⟩
        · refine ⟨i, mem_of_instruction? hi, o, List.mem_of_getElem? ho, ?_⟩
          rw [heq, hbefore]
        · exact heq ▸ h.renames entry hentry

end SourcesMentioned

theorem sourcesMentioned (f : Function) (x : Point) : f.SourcesMentioned x := by
  induction x using points_induction f with
  | entry =>
    exact ⟨by simp [renamesAt, renamesBefore, progressFrom], by simp [knownAt_zero]⟩
  | step b k ih => exact ih.succ
  | block b ih => exact ⟨ih.renames, by simp [knownAt_zero]⟩

end Function

/-! ## Proper renamings -/

/-- A source that is a parameter has one of the ids, and a virtual register has none. -/
def Source.Proper (ids : List RegId) : Source → Prop
  | .virtualReg id => id ∉ ids
  | .parameter id => id ∈ ids

theorem Source.proper_of? (h : o.Proper ids) (hsource : Source.of? o = some source) :
    source.Proper ids := by
  obtain ⟨kind, ty, regClass⟩ := o
  cases kind with
  | virtualReg id =>
    cases hsource
    exact h.virtualReg id rfl
  | parameter id =>
    cases hsource
    exact h.parameter id rfl
  | _ => cases hsource

/-- Registers that are renamed are no parameters, and neither are virtual registers that they are
renamed to. -/
structure Renames.Proper (ids : List RegId) (rs : Renames) : Prop where
  renamed : ∀ entry ∈ rs.entries, entry.1 ∉ ids
  sources : ∀ entry ∈ rs.entries, entry.2.Proper ids

namespace Renames.Proper

theorem resolve (h : rs.Proper ids) (hsource : source.Proper ids) :
    (rs.resolve source).Proper ids := by
  rcases rs.resolve_cases source with heq | ⟨entry, hentry, heq⟩
  · rwa [heq]
  · exact heq ▸ h.sources entry hentry

theorem applyOperand (h : rs.Proper ids) (ho : o.Proper ids) : (rs.applyOperand o).Proper ids := by
  rw [Renames.applyOperand]
  split
  · next r hkind =>
    have hsource : (Source.virtualReg r).Proper ids := ho.virtualReg r hkind
    have hresolve := h.resolve hsource
    cases hs : rs.resolve (.virtualReg r) with
    | virtualReg id =>
      rw [hs] at hresolve
      exact ⟨fun id' hid => by cases hid; exact hresolve, fun _ h => by cases h⟩
    | parameter id =>
      rw [hs] at hresolve
      exact ⟨(fun _ h => by cases h), fun id' hid => by cases hid; exact hresolve⟩
  · next base offset hkind =>
    refine Operand.proper_of_isPlace ?_
    simp [Operand.setReg, Operand.withKind, hkind, Operand.isPlace, Operand.isMemory]
  · exact ho

theorem resolve_of_mem (h : rs.Proper ids) (hr : r ∈ ids) :
    rs.resolve (.virtualReg r) = .virtualReg r := by
  refine follow_of_lookup_eq_none ?_ _
  rw [List.lookup_eq_none_iff]
  intro entry hentry
  rw [bne_iff_ne]
  rintro rfl
  exact h.renamed entry hentry hr

end Renames.Proper

namespace Function

theorem Mentions.proper (h : f.Mentions source) (hf : f.All (·.Proper ids)) : source.Proper ids := by
  obtain ⟨i, hi, o, ho, hsource⟩ := h
  exact Source.proper_of? (hf i hi o ho) hsource

theorem proper_renamesAt (hf : f.All (·.Proper ids)) (x : Point) : (f.renamesAt x).Proper ids where
  renamed entry hentry := by
    obtain ⟨p, -, -, honce⟩ := (f.traced x).renames entry hentry
    exact honce.defines.mentions.proper hf
  sources entry hentry := ((f.sourcesMentioned x).renames entry hentry).proper hf

theorem proper_allRenames (hf : f.All (·.Proper ids)) : f.allRenames.Proper ids :=
  proper_renamesAt hf (f.blocks.length, 0)

/-! ## Optimized code -/

/-- Renaming on the way changes nothing about what an operand is renamed to in the end. -/
theorem applyOperand_renamesAt (hf : f.All (·.Proper ids)) (hacyclic : f.allRenames.Acyclic)
    (hi : f.instruction? b k = some i) (o : Operand) :
    f.allRenames.applyOperand ((f.renamesAt (b, k)).applyOperand o) =
      f.allRenames.applyOperand o := by
  obtain ⟨kind, ty, regClass⟩ := o
  cases kind with
  | virtualReg r =>
    have hresolve := resolve_renamesAt hacyclic hi (.virtualReg r)
    simp only [Renames.applyOperand, Operand.withKind]
    rw [← hresolve]
    cases (f.renamesAt (b, k)).resolve (.virtualReg r) with
    | virtualReg id => rfl
    | parameter id =>
      rw [Renames.resolve_parameter]
      rfl
  | memory base offset =>
    have hresolve := resolve_renamesAt hacyclic hi (.virtualReg base)
    have hproper : ∀ id, (f.renamesAt (b, k)).resolve (.virtualReg base) = .parameter id →
        id ∈ ids := by
      intro id hid
      by_cases hbase : base ∈ ids
      · rw [(proper_renamesAt hf (b, k)).resolve_of_mem hbase] at hid
        cases hid
      · have hsource : (Source.virtualReg base).Proper ids := hbase
        have hresolved := (proper_renamesAt hf (b, k)).resolve hsource
        rwa [hid] at hresolved
    simp only [Renames.applyOperand, Operand.setReg, Operand.withKind]
    rw [← hresolve]
    cases hid : (f.renamesAt (b, k)).resolve (.virtualReg base) with
    | virtualReg id => rfl
    | parameter id =>
      rw [Source.id, (proper_allRenames hf).resolve_of_mem (hproper id hid),
        Renames.resolve_parameter]
      rfl
  | _ => rfl

theorem apply_renamesAt (hf : f.All (·.Proper ids)) (hacyclic : f.allRenames.Acyclic)
    (hi : f.instruction? b k = some i) (j : Instruction) :
    f.allRenames.apply ((f.renamesAt (b, k)).apply j) = f.allRenames.apply j := by
  simp only [Renames.apply, Instruction.withOperands, List.map_map, Function.comp_def,
    applyOperand_renamesAt hf hacyclic hi]

theorem thins_remaining (hf : f.All (·.Proper ids)) (hacyclic : f.allRenames.Acyclic)
    (b k : Nat) :
    Thins f.allRenames.apply (f.rest b k) ((f.remaining (b, k)).2.map f.allRenames.apply) := by
  refine remaining_induction (P := fun is js =>
    Thins f.allRenames.apply is (js.map f.allRenames.apply)) f b .nil (fun hi hredundant _ _ ih => ?_)
    (fun hi hredundant _ _ ih => ?_) k
  · refine .drop ?_ ih
    rw [← (f.traced _).virtualDef?_apply hi, (Known.redundant?_cases hredundant).1]
    rfl
  · rw [List.map_cons, apply_renamesAt hf hacyclic hi]
    exact .keep _ ih

theorem thins_dropDead (f : Function) {block' : Block} (h : f.dropDead.blocks[b]? = some block') :
    ∃ block, f.blocks[b]? = some block ∧ Thins id block.instructions block'.instructions := by
  induction f using Function.dropDead.induct with
  | case1 f hlt ih =>
    rw [dropDead, if_pos hlt] at h
    obtain ⟨swept, hswept, hthins⟩ := ih h
    rw [sweep] at hswept
    dsimp only at hswept
    rw [List.getElem?_map] at hswept
    obtain ⟨block, hblock, rfl⟩ := Option.map_eq_some_iff.mp hswept
    refine ⟨block, hblock, .trans (fun _ h => h) (.filter fun i _ hdead => ?_) hthins⟩
    obtain ⟨-, d, r, hd, hkind, -⟩ := exists_of_isDead (by simpa using hdead)
    rw [Instruction.virtualDef?_eq_some.mpr ⟨d, hd, hkind⟩]
    rfl
  | case2 f hge =>
    rw [dropDead, if_neg hge] at h
    exact ⟨block', h, .refl _⟩

theorem length_blocks_dropDead (f : Function) : f.dropDead.blocks.length = f.blocks.length := by
  induction f using Function.dropDead.induct with
  | case1 f hlt ih =>
    rw [dropDead, if_pos hlt, ih, sweep]
    exact List.length_map _
  | case2 f hge => rw [dropDead, if_neg hge]

theorem length_blocks_optimized (h : f.optimized = .ok g) :
    g.blocks.length = f.blocks.length := by
  obtain ⟨-, rfl⟩ := optimized_eq_ok.mp h
  exact (length_blocks_dropDead _).trans f.length_blocks_simplify

/-- **All that happens to an instruction that stays is that all renamings are applied to it.** -/
theorem thins_optimized (hf : f.All (·.Proper ids)) (h : f.optimized = .ok g) {block' : Block}
    (hblock' : g.blocks[b]? = some block') : ∃ block, f.blocks[b]? = some block ∧
      Thins f.renames.apply block.instructions block'.instructions := by
  obtain ⟨hacyclic, rfl⟩ := optimized_eq_ok.mp h
  rw [Renames.isAcyclic_iff, renames_eq] at hacyclic
  obtain ⟨simplified, hsimplified, hswept⟩ := thins_dropDead f.simplify hblock'
  rw [blocks_simplify] at hsimplified
  obtain ⟨block, hblock, rfl⟩ := Option.map_eq_some_iff.mp hsimplified
  refine ⟨block, hblock, ?_⟩
  have hrest : f.rest b 0 = block.instructions := by
    rw [rest, hblock]
    rfl
  have hthins := thins_remaining hf hacyclic b 0
  rw [hrest] at hthins
  rw [renames_eq]
  exact hthins.trans (fun _ => Renames.isSome_virtualDef?) hswept

theorem exists_of_mem_optimized (hf : f.All (·.Proper ids)) (h : f.optimized = .ok g)
    {i' : Instruction} (hi' : i' ∈ g.instructions) :
    ∃ i ∈ f.instructions, i' = f.renames.apply i := by
  obtain ⟨block', hblock', hi'⟩ := mem_instructions.mp hi'
  obtain ⟨b, hb⟩ := List.mem_iff_getElem?.mp hblock'
  obtain ⟨block, hblock, hthins⟩ := thins_optimized hf h hb
  obtain ⟨before, behind, hsplit⟩ := List.append_of_mem hi'
  rw [hsplit] at hthins
  obtain ⟨before', i, behind', hsplit', -, heq, -⟩ := hthins.exists_split
  exact ⟨i, mem_instructions.mpr ⟨block, List.mem_of_getElem? hblock, by simp [hsplit']⟩, heq⟩

end Function

end Retarget.Machine
