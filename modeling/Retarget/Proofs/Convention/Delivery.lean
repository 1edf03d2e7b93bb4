import Retarget.Proofs.Convention.Separation
import Retarget.Proofs.Convention.Staging

/-!
# What a set-up leaves in argument registers

A set-up in a function is code that first fetches into new ids and then moves into physical
registers (`Machine.Function.SetUp`).  Once ids have registers, no fetch writes the register of a
parameter that a later one reads, and between the place where an id is mentioned first and a move
that reads it nothing else writes its register.  So each argument register ends up with what its part
of an argument was before the set-up (`SetUp.delivers`).
-/

namespace Retarget

section lists

variable {α β : Type} {R : α → β → Prop}

theorem exists_append_of_forall₂_append {as : List α} {bs bs' : List β}
    (h : List.Forall₂ R as (bs ++ bs')) :
    ∃ xs ys, as = xs ++ ys ∧ List.Forall₂ R xs bs ∧ List.Forall₂ R ys bs' :=
  ⟨_, _, (List.take_append_drop bs.length as).symm, List.forall₂_take_append _ _ _ h,
    List.forall₂_drop_append _ _ _ h⟩

theorem exists_cons_of_forall₂_cons {as : List α} {bs bs' : List β} {b : β}
    (h : List.Forall₂ R as (bs ++ b :: bs')) :
    ∃ xs x ys, as = xs ++ x :: ys ∧ List.Forall₂ R xs bs ∧ R x b ∧ List.Forall₂ R ys bs' := by
  obtain ⟨xs, rest, rfl, hxs, hrest⟩ := exists_append_of_forall₂_append h
  obtain ⟨x, ys, hx, hys, rfl⟩ := List.forall₂_cons_right_iff.mp hrest
  exact ⟨xs, x, ys, rfl, hxs, hx, hys⟩

end lists

namespace Machine

variable {t : Target} {i : Instruction} {fill : Fill} {id reg : RegId}

/-! ## What a fill mentions -/

theorem GenericOp.Fetches.register?_eq {op : GenericOp} {s : Operand} {o : Origin}
    (h : op.Fetches s o) (hid : o.register? = some id) : s.unallocated? = some id := by
  cases h with
  | @mov x hx | @movf x hx =>
    have ho : s.origin? = some (.datum x) := by
      rw [Operand.origin?, hx]
      rfl
    rw [← Operand.register?_of_origin? ho, hid]
  | load ho =>
    have hdatum : s.datum? = none := by
      obtain ⟨kind, ty, regClass⟩ := s
      cases kind <;> first | rfl | cases ho
    have ho : s.origin? = some o := by
      rw [Operand.origin?, hdatum]
      exact ho
    rw [← Operand.register?_of_origin? ho, hid]
  | stackAddress | globalAddress => cases hid

/-- The fill writes the id or reads it. -/
def Fill.Mentions (fill : Fill) (id : RegId) : Prop :=
  fill.dest = .virtualReg id ∨ fill.origin.register? = some id

namespace Instruction.Fills

theorem exists_dest (h : i.Fills fill) : ∃ d ∈ i.operands, d.kind = fill.dest := by
  obtain ⟨-, hoperands, -, -⟩ := h
  exact ⟨_, by simp [hoperands], rfl⟩

theorem mem_ids (h : i.Fills fill) (hid : fill.Mentions id) : id ∈ i.ids := by
  rcases hid with hid | hid
  · obtain ⟨d, hd, hkind⟩ := h.exists_dest
    refine List.mem_filterMap.mpr ⟨d, hd, ?_⟩
    rw [Operand.unallocated?, hkind, hid]
  · obtain ⟨-, hoperands, -, hs⟩ := h
    rw [Instruction.ids, hoperands]
    exact List.mem_filterMap.mpr ⟨_, by simp, hs.register?_eq hid⟩

end Instruction.Fills

theorem Instruction.mem_physicalRoots {d : Operand} (hd : d ∈ i.operands)
    (hreg : d.kind = .physicalReg reg) :
    t.registers.root reg ∈ Function.physicalRoots t i := by
  refine List.mem_filterMap.mpr ⟨d, List.mem_filter.mpr ⟨hd, ?_⟩, ?_⟩
  · rw [Operand.isPhysical, hreg]
  · rw [Operand.reg?, hreg, Option.map_some]

theorem occurs_of_fills {is : List Instruction} {fills : List Fill}
    (h : List.Forall₂ Instruction.Fills is fills) (hmem : fill ∈ fills) (hid : fill.Mentions id) :
    Occurs is id := by
  obtain ⟨before, after, rfl⟩ := List.append_of_mem hmem
  obtain ⟨xs, i, ys, rfl, -, hi, -⟩ := exists_cons_of_forall₂_cons h
  exact ⟨i, by simp, hi.mem_ids hid⟩

end Machine

namespace Lowering

open Machine

variable {t : Target} {P : Placement t} {σ σ' : Cpu t.pointerBits}

/-! ## Parts -/

/-- A register that is filled and not written again holds what the origin had at the start. -/
theorem read_of_filled {before after : List Fill} {fill : Fill} {id : RegId}
    (hrun : Run P (before ++ fill :: after) σ σ') (hdest : fill.dest = .virtualReg id)
    (hbefore : ∀ e ∈ before, P.Spares fill.origin.base e)
    (hafter : ∀ e ∈ after, P.root e.dest ≠ P.home id) :
    σ'.read (P.home id) fill.ty.bits = fill.origin.eval P σ fill.ty.bits := by
  have hroot : P.root fill.dest = P.home id := by rw [hdest]; rfl
  rw [← hroot] at hafter ⊢
  exact hrun.written hbefore hafter

/-- What is read from an origin has the bits of the part that were there at the start, if the fills
on the way write neither where the part comes from nor what was fetched of it. -/
theorem Part.ReadFrom.eval_eq {part : Part} {fetched behind : List Fill} {bits : Nat} {o : Origin}
    (h : part.ReadFrom t.pointerBits fetched bits o) (hrun : Run P (fetched ++ behind) σ σ')
    (hdirect : o = part.origin → ∀ e ∈ fetched ++ behind, P.Spares o.base e)
    (hfetched : ∀ before fill after id, fetched = before ++ fill :: after →
      fill.dest = .virtualReg id → o.register? = some id →
      (∀ e ∈ before, P.Spares fill.origin.base e) ∧
        ∀ e ∈ after ++ behind, P.root e.dest ≠ P.home id) :
    part.width ≤ bits ∧
      (o.eval P σ' bits).setWidth part.width = part.origin.eval P σ part.width := by
  -- what a fetched register holds at the end
  have hread : ∀ fill ∈ fetched, ∀ id, fill.dest = .virtualReg id → o.register? = some id →
      σ'.read (P.home id) fill.ty.bits = fill.origin.eval P σ fill.ty.bits := by
    intro fill hfill id hdest hid
    obtain ⟨before, after, rfl⟩ := List.append_of_mem hfill
    obtain ⟨hbefore, hafter⟩ := hfetched before fill after id rfl hdest hid
    rw [List.append_assoc, List.cons_append] at hrun
    exact read_of_filled hrun hdest hbefore hafter
  cases h with
  | direct hwidth =>
    subst hwidth
    exact ⟨Nat.le_refl _, by rw [BitVec.setWidth_eq, hrun.eval_eq (hdirect rfl)]⟩
  | @copied fill id hfill hdest horigin hwidth hbits =>
    subst hwidth
    refine ⟨Nat.le_refl _, ?_⟩
    have hvalue := hread fill hfill id hdest rfl
    rw [horigin, hbits] at hvalue
    rw [BitVec.setWidth_eq]
    exact hvalue
  | @address fill id x hfill hdest horigin hx hbits hpart =>
    have hvalue := hread fill hfill id hdest rfl
    rw [horigin, hbits] at hvalue
    have hwidth : part.width = min bits t.pointerBits := by rw [hpart, Part.ofDatum, if_pos hx]
    have hle : part.width ≤ bits := hwidth ▸ Nat.min_le_left _ _
    have hlePointer : part.width ≤ t.pointerBits := hwidth ▸ Nat.min_le_right _ _
    refine ⟨hle, ?_⟩
    calc (Origin.eval P σ' bits (.datum (.register id))).setWidth part.width
        = σ'.read (P.home id) part.width := (σ'.read_of_le (P.home id) hle).symm
      _ = (σ'.read (P.home id) t.pointerBits).setWidth part.width :=
        σ'.read_of_le (P.home id) hlePointer
      _ = (x.eval P σ t.pointerBits).setWidth part.width := congrArg _ hvalue
      _ = x.eval P σ part.width := (Datum.eval_of_le hx σ hlePointer).symm
      _ = part.origin.eval P σ part.width := by rw [hpart]; rfl
  | @based fill id x offset hfill hdest horigin hbits hpart =>
    have hvalue := hread fill hfill id hdest rfl
    rw [horigin, hbits] at hvalue
    subst hpart
    refine ⟨Nat.le_refl _, ?_⟩
    have hbase : Datum.eval P σ' t.pointerBits (.register id) = x.eval P σ t.pointerBits := hvalue
    rw [BitVec.setWidth_eq, Origin.eval, Origin.eval, hrun.memory, hbase]

end Lowering

namespace Machine.Function

open Lowering (Part)

variable {a : Arch} {f g : Function} {alloc : Allocation} {xs ys : List Instruction}
  {i : Instruction} {w id : RegId} {fill : Fill} {symbols : String → BitVec a.target.pointerBits}

/-! ## Registers that fills write -/

section allocated

variable (h : f.assignRegisters a.target = .ok (alloc, g))
include h

theorem root_ne_stackRoot (hmem : i ∈ f.instructions) (hfill : i.Fills fill)
    (hkind : (∃ w, fill.dest = .virtualReg w) ∨
      ∃ reg, fill.dest = .physicalReg reg ∧ a.target.registers.root reg ≠ a.target.stackRoot) :
    (g.placement a.target alloc.assigned symbols).root fill.dest ≠ a.target.stackRoot := by
  rcases hkind with ⟨w, hw⟩ | ⟨reg, hreg, hne⟩
  · obtain ⟨home, hhome⟩ := exists_lookup h (.inl ⟨i, hmem, hfill.mem_ids (.inl hw)⟩)
    rw [hw, Placement.root, home_placement hhome]
    exact lookup_ne_stackRoot h hhome
  · rw [hreg]
    exact hne

variable (hreturns : ∀ i ∈ f.instructions, i.isReturn → i.operands.length ≤ 1)
include hreturns

theorem operand_ne_home_of_between (hparam : id ∉ f.paramIds)
    (hsplit : f.instructions = xs ++ i :: ys) (hxs : Occurs xs id) (hys : Occurs ys id)
    (hi : i.isReturn = false) {d : Operand} (hd : d ∈ i.operands) (hne : d.kind ≠ .virtualReg id)
    (hkind : (∃ w, d.kind = .virtualReg w) ∨ ∃ reg, d.kind = .physicalReg reg) :
    (g.placement a.target alloc.assigned symbols).root d.kind ≠
      (g.placement a.target alloc.assigned symbols).home id := by
  have hocc : Occurs f.instructions id := by
    rw [hsplit]
    exact occurs_append.mpr (.inl hxs)
  obtain ⟨home, hhome⟩ := exists_lookup h (.inl hocc)
  rw [home_placement hhome]
  rcases hkind with ⟨w, hw⟩ | ⟨reg, hreg⟩
  · have hmention : w ∈ i.ids := List.mem_filterMap.mpr ⟨d, hd, by rw [Operand.unallocated?, hw]⟩
    have hne : id ≠ w := by
      rintro rfl
      exact hne hw
    have hbefore : Before f.instructions id w := by
      rw [hsplit, before_append]
      exact .inr (.inl ⟨hxs, i, List.mem_cons_self, hmention⟩)
    have hback : Before f.instructions w id := by
      rw [hsplit, before_append]
      exact .inr (.inr (.inl ⟨hmention, hys⟩))
    have hapart := lookup_ne_of_before h hreturns hparam hne hbefore (.inr hback)
    obtain ⟨other, hother⟩ : ∃ other, alloc.assigned.lookup w = some other :=
      exists_lookup h (.inl (by rw [hsplit]; exact ⟨i, by simp, hmention⟩))
    rw [hw, Placement.root, home_placement hother]
    rintro rfl
    exact hapart (hhome.trans hother.symm)
  · rw [hreg]
    rintro rfl
    exact not_mem_physicalRoots_of_between h hparam hsplit hxs hys hi hhome
      (Instruction.mem_physicalRoots hd hreg)

theorem root_ne_home_of_between (hparam : id ∉ f.paramIds)
    (hsplit : f.instructions = xs ++ i :: ys) (hxs : Occurs xs id) (hys : Occurs ys id)
    (hi : i.isReturn = false) (hfill : i.Fills fill) (hdest : fill.dest ≠ .virtualReg id)
    (hkind : (∃ w, fill.dest = .virtualReg w) ∨ ∃ reg, fill.dest = .physicalReg reg) :
    (g.placement a.target alloc.assigned symbols).root fill.dest ≠
      (g.placement a.target alloc.assigned symbols).home id := by
  obtain ⟨d, hd, hsame⟩ := hfill.exists_dest
  rw [← hsame] at hdest hkind ⊢
  exact operand_ne_home_of_between h hreturns hparam hsplit hxs hys hi hd hdest hkind

theorem root_ne_home_of_parameter (hparam : id ∈ f.paramIds) (hw : w ∉ f.paramIds)
    (hsplit : f.instructions = xs ++ i :: ys) (hys : Occurs ys id) (hi : i.isReturn = false)
    (hfill : i.Fills fill) (hdest : fill.dest = .virtualReg w) :
    (g.placement a.target alloc.assigned symbols).root fill.dest ≠
      (g.placement a.target alloc.assigned symbols).home id := by
  have hmention := hfill.mem_ids (.inl hdest)
  have hapart := lookup_ne_parameter h hreturns hw hparam hsplit hi hmention hys
  obtain ⟨home, hhome⟩ := exists_lookup h (.inr hparam)
  obtain ⟨other, hother⟩ : ∃ other, alloc.assigned.lookup w = some other :=
    exists_lookup h (.inl (by rw [hsplit]; exact ⟨i, by simp, hmention⟩))
  rw [hdest, Placement.root, home_placement hother, home_placement hhome]
  rintro rfl
  exact hapart (hother.trans hhome.symm)

end allocated

/-! ## Set-ups -/

/-- Code in the function fetches from incoming parameters, frame objects and globals into ids that
were not mentioned before, and then moves into distinct physical registers what is in no
parameter. -/
structure SetUp (a : Arch) (f : Function) (earlier code later : List Instruction)
    (fetched moved : List Fill) : Prop where
  split : f.instructions = earlier ++ code ++ later
  fills : List.Forall₂ Instruction.Fills code (fetched ++ moved)
  quiet : ∀ i ∈ code, i.isReturn = false
  fresh : ∀ e ∈ fetched, ∃ id, e.dest = .virtualReg id ∧ id ∉ f.paramIds ∧ ¬Occurs earlier id
  incoming : ∀ e ∈ fetched, ∀ id, e.origin.register? = some id → id ∈ f.paramIds
  apart : fetched.Pairwise (·.dest ≠ ·.dest)
  dests : ∀ e ∈ moved, ∃ reg, e.dest = .physicalReg reg ∧
    a.target.registers.root reg ≠ a.target.stackRoot
  roots : moved.Pairwise fun e e' => ∀ P : Placement a.target, P.root e.dest ≠ P.root e'.dest
  spares : ∀ e ∈ moved, ∀ id, e.origin.register? = some id → id ∉ f.paramIds

namespace SetUp

variable {earlier code later : List Instruction} {fetched moved before after : List Fill}

theorem exists_at (hs : f.SetUp a earlier code later fetched moved)
    (hsplit : fetched ++ moved = before ++ fill :: after) :
    ∃ xs i ys, f.instructions = (earlier ++ xs) ++ i :: (ys ++ later) ∧ i.isReturn = false ∧
      List.Forall₂ Instruction.Fills xs before ∧ i.Fills fill ∧
      List.Forall₂ Instruction.Fills ys after := by
  have hfills := hs.fills
  rw [hsplit] at hfills
  obtain ⟨xs, i, ys, hcode, hxs, hi, hys⟩ := exists_cons_of_forall₂_cons hfills
  refine ⟨xs, i, ys, ?_, hs.quiet i (by simp [hcode]), hxs, hi, hys⟩
  rw [hs.split, hcode]
  simp

theorem kind (hs : f.SetUp a earlier code later fetched moved) (hmem : fill ∈ fetched ++ moved) :
    (∃ w, fill.dest = .virtualReg w) ∨ ∃ reg, fill.dest = .physicalReg reg ∧
      a.target.registers.root reg ≠ a.target.stackRoot := by
  rcases List.mem_append.mp hmem with hmem | hmem
  · obtain ⟨w, hw, -⟩ := hs.fresh fill hmem
    exact .inl ⟨w, hw⟩
  · exact .inr (hs.dests fill hmem)

theorem dest_ne (hs : f.SetUp a earlier code later fetched moved) (hmem : fill ∈ moved) :
    fill.dest ≠ .virtualReg id := by
  obtain ⟨reg, hreg, -⟩ := hs.dests fill hmem
  rw [hreg]
  nofun

section allocated

variable (hs : f.SetUp a earlier code later fetched moved)
  (h : f.assignRegisters a.target = .ok (alloc, g))
include hs h

theorem root_ne_stackRoot (hmem : fill ∈ fetched ++ moved) :
    (g.placement a.target alloc.assigned symbols).root fill.dest ≠ a.target.stackRoot := by
  obtain ⟨before, after, hsplit⟩ := List.append_of_mem hmem
  obtain ⟨xs, i, ys, hall, -, -, hi, -⟩ := hs.exists_at hsplit
  exact Function.root_ne_stackRoot h (by simp [hall]) hi (hs.kind hmem)

variable (hreturns : ∀ i ∈ f.instructions, i.isReturn → i.operands.length ≤ 1)
include hreturns

theorem root_ne_home (hsplit : fetched ++ moved = before ++ fill :: after) (hparam : id ∉ f.paramIds)
    (hfirst : Occurs earlier id ∨ ∃ e ∈ before, e.Mentions id) (hlast : ∃ e ∈ after, e.Mentions id)
    (hdest : fill.dest ≠ .virtualReg id) :
    (g.placement a.target alloc.assigned symbols).root fill.dest ≠
      (g.placement a.target alloc.assigned symbols).home id := by
  obtain ⟨xs, i, ys, hall, hi, hxs, hfill, hys⟩ := hs.exists_at hsplit
  have hmem : fill ∈ fetched ++ moved := by simp [hsplit]
  refine root_ne_home_of_between h hreturns hparam hall (occurs_append.mpr ?_)
    (occurs_append.mpr (.inl ?_)) hi hfill hdest
    ((hs.kind hmem).imp_right fun ⟨reg, hreg, _⟩ => ⟨reg, hreg⟩)
  · exact hfirst.imp_right fun ⟨e, he, hid⟩ => occurs_of_fills hxs he hid
  · obtain ⟨e, he, hid⟩ := hlast
    exact occurs_of_fills hys he hid

theorem spares_of_fetched (hsplit : fetched = before ++ fill :: after) {e : Fill} (he : e ∈ before) :
    (g.placement a.target alloc.assigned symbols).Spares fill.origin.base e := by
  obtain ⟨first, second, rfl⟩ := List.append_of_mem he
  have hmem : e ∈ fetched := by simp [hsplit]
  refine ⟨hs.root_ne_stackRoot h (List.mem_append_left _ hmem), fun id hid => ?_⟩
  obtain ⟨w, hw, hnew, -⟩ := hs.fresh e hmem
  have hall : fetched ++ moved = first ++ e :: (second ++ fill :: after ++ moved) := by
    simp [hsplit]
  obtain ⟨xs, i, ys, hcode, hi, -, hfill, hys⟩ := hs.exists_at hall
  have hbehind : fill ∈ second ++ fill :: after ++ moved := by simp
  have hread : Occurs ys id := occurs_of_fills hys hbehind (.inr hid)
  exact root_ne_home_of_parameter h hreturns (hs.incoming fill (by simp [hsplit]) id hid) hnew hcode
    (occurs_append.mpr (.inl hread)) hi hfill hw

/-- **An argument register gets its part**: behind the set-up it holds what the part was before, if
what the part reads is a parameter or was mentioned before the set-up. -/
theorem delivers {σ σ' : Cpu a.target.pointerBits}
    (hrun : Run (g.placement a.target alloc.assigned symbols) (fetched ++ moved) σ σ')
    (hmem : fill ∈ moved) {part : Part}
    (hpart : part.ReadFrom a.target.pointerBits fetched fill.ty.bits fill.origin)
    (hknown : ∀ id, part.origin.register? = some id → id ∈ f.paramIds ∨ Occurs earlier id) :
    part.width ≤ fill.ty.bits ∧
      σ'.read ((g.placement a.target alloc.assigned symbols).root fill.dest) part.width =
        part.origin.eval (g.placement a.target alloc.assigned symbols) σ part.width := by
  obtain ⟨first, second, rfl⟩ := List.append_of_mem hmem
  have hrun' := hrun
  rw [← List.append_assoc, Run.append_iff] at hrun'
  obtain ⟨σ₁, hbefore, hmove⟩ := hrun'
  have hmove' : Run (g.placement a.target alloc.assigned symbols) ([] ++ fill :: second) σ₁ σ' :=
    hmove
  have hwritten := hmove'.written (by simp) fun e he heq =>
    (List.pairwise_cons.mp (List.pairwise_append.mp hs.roots).2.1).1 e he _ heq.symm
  have hvalue := hpart.eval_eq hbefore (fun horigin e he => ?_)
    fun before fetch after id hsplit hdest hid => ⟨fun e he => ?_, fun e he => ?_⟩
  · refine ⟨hvalue.1, ?_⟩
    rw [Cpu.read_of_le _ _ hvalue.1, hwritten]
    exact hvalue.2
  · -- what the move reads in place was mentioned before the set-up
    obtain ⟨xs, ys, hxs⟩ := List.append_of_mem he
    have hsplit : fetched ++ (first ++ fill :: second) = xs ++ e :: (ys ++ fill :: second) := by
      rw [← List.append_assoc, hxs]
      simp
    have hall : e ∈ fetched ++ (first ++ fill :: second) := by simp [hsplit]
    refine ⟨hs.root_ne_stackRoot h hall, fun id hid => ?_⟩
    have hnot := hs.spares fill hmem id hid
    have hknown' : Occurs earlier id := (hknown id (horigin ▸ hid)).resolve_left hnot
    refine hs.root_ne_home h hreturns hsplit hnot (.inl hknown') ⟨fill, by simp, .inr hid⟩ ?_
    rintro hdest
    rcases List.mem_append.mp hall with hfetch | hmoved
    · obtain ⟨w, hw, -, hfresh⟩ := hs.fresh e hfetch
      cases hdest.symm.trans hw
      exact hfresh hknown'
    · exact hs.dest_ne hmoved hdest
  · exact hs.spares_of_fetched h hreturns hsplit he
  · -- what was fetched stays in its register until the move reads it
    obtain ⟨xs, ys, hxs⟩ := List.append_of_mem he
    have hall : fetched ++ (first ++ fill :: second) =
        (before ++ fetch :: xs) ++ e :: (ys ++ fill :: second) := by
      have hbehind : after ++ (first ++ fill :: second) = xs ++ e :: (ys ++ fill :: second) := by
        rw [← List.append_assoc, hxs]
        simp
      rw [hsplit, List.append_assoc, List.cons_append, hbehind]
      simp
    refine hs.root_ne_home h hreturns hall (hs.spares fill hmem id hid)
      (.inr ⟨fetch, by simp, .inl hdest⟩) ⟨fill, by simp, .inr hid⟩ fun heq => ?_
    rcases List.mem_append.mp he with hafter | hmoved
    · have hapart := hs.apart
      rw [hsplit] at hapart
      exact (List.pairwise_cons.mp (List.pairwise_append.mp hapart).2.1).1 e hafter
        (hdest.trans heq.symm)
    · exact hs.dest_ne (List.mem_append_left _ hmoved) heq

end allocated

end SetUp

end Machine.Function

end Retarget
