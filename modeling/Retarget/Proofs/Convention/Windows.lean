import Mathlib.Data.List.DropRight
import Retarget.Proofs.Convention.Calls
import Retarget.Proofs.Convention.Delivery

/-!
# From the first argument register to the call

The window of a call is the code from the first write of a physical register behind the last call or
return up to the call (`Machine.window`).  In lowered code it is the moves into argument registers
(`CallSite.IsSetUp.window_eq`), and these read no incoming parameter
(`not_readsParameter_of_lowerFunction`).
-/

namespace Retarget

namespace Machine

def Instruction.writesPhysical (i : Instruction) : Bool := i.def?.any (·.isPhysical)

/-- The code in front of a call, from the first write of a physical register for it on. -/
def window (before : List Instruction) : List Instruction :=
  (before.rtakeWhile fun i => !(i.isCall || i.isReturn)).dropWhile fun i => !i.writesPhysical

/-- The instruction reads a parameter, or memory at the address in one. -/
def Instruction.ReadsParameter (params : List RegId) (i : Instruction) : Prop :=
  ∃ o ∈ i.uses, o.isParameter ∨ ∃ base offset, o.kind = .memory base offset ∧ base ∈ params

/-- Code of straight instructions that starts with a write of a physical register is the window
behind code that writes none since its last call or return. -/
theorem window_append {before quiet writes : List Instruction}
    (hbefore : ∀ first i rest, before = first ++ i :: rest → i.writesPhysical →
      ∃ j ∈ rest, j.isCall ∨ j.isReturn)
    (hquiet : ∀ i ∈ quiet, i.isCall = false ∧ i.isReturn = false ∧ i.writesPhysical = false)
    (hwrites : ∀ i ∈ writes, i.isCall = false ∧ i.isReturn = false ∧ i.writesPhysical) :
    window (before ++ quiet ++ writes) = writes := by
  have hstraight : ∀ i ∈ quiet ++ writes, (!(i.isCall || i.isReturn)) = true := by
    refine List.forall_mem_append.mpr ⟨fun i hi => ?_, fun i hi => ?_⟩
    · simp [(hquiet i hi).1, (hquiet i hi).2.1]
    · simp [(hwrites i hi).1, (hwrites i hi).2.1]
  have htake : (before ++ quiet ++ writes).rtakeWhile (fun i => !(i.isCall || i.isReturn)) =
      before.rtakeWhile (fun i => !(i.isCall || i.isReturn)) ++ (quiet ++ writes) := by
    rw [List.append_assoc, List.rtakeWhile, List.reverse_append,
      List.takeWhile_append_of_pos fun i hi => hstraight i (List.mem_reverse.mp hi),
      List.reverse_append, List.reverse_reverse, List.rtakeWhile]
  -- a write in the rest of the code before would have a call or a return behind it
  have hrest : ∀ i ∈ before.rtakeWhile (fun i => !(i.isCall || i.isReturn)),
      i.writesPhysical = false := by
    intro i hi
    obtain ⟨first, rest, hsplit⟩ := List.append_of_mem hi
    by_contra hwrite
    obtain ⟨front, hfront⟩ := List.rtakeWhile_suffix (fun i => !(i.isCall || i.isReturn)) before
    rw [hsplit, ← List.append_assoc] at hfront
    obtain ⟨j, hj, hends⟩ := hbefore _ i rest hfront.symm (by simpa using hwrite)
    have hmem : j ∈ before.rtakeWhile (fun i => !(i.isCall || i.isReturn)) := by
      rw [hsplit]
      exact List.mem_append_right _ (List.mem_cons_of_mem _ hj)
    have hnot := List.mem_rtakeWhile_imp hmem
    rcases hends with h | h <;> simp [h] at hnot
  have hdrop : ∀ i ∈ before.rtakeWhile (fun i => !(i.isCall || i.isReturn)) ++ quiet,
      (!i.writesPhysical) = true := by
    refine List.forall_mem_append.mpr ⟨fun i hi => ?_, fun i hi => ?_⟩
    · simp [hrest i hi]
    · simp [(hquiet i hi).2.2]
  rw [window, htake, ← List.append_assoc, List.dropWhile_append_of_pos hdrop]
  cases writes with
  | nil => rfl
  | cons i writes =>
    exact List.dropWhile_cons_of_neg (by simp [(hwrites i List.mem_cons_self).2.2])

end Machine

namespace Lowering

open Machine

variable {c : Scope} {s : State} {f : Ir.Function} {x : CallSite} {blocks : List Machine.Block}
  {before : List Instruction} {call : Instruction}

/-! ## Moves into argument registers -/

theorem writesPhysical_iff {i : Instruction} : i.writesPhysical ↔ WritesPhysical i := by
  rw [Instruction.writesPhysical, Option.any_eq_true]
  rfl

theorem exists_carries_of_mem {fetched : List Fill} {returnBuffer : Option Nat}
    {args : List (Ir.Value × Nat)} {groups : List (List Placed)}
    (h : List.Forall₂ (fun arg group => c.Delivers s fetched (returnBuffer == some arg.2) arg.1 group)
      args groups) {p : Placed} (hmem : p ∈ groups.flatten) :
    ∃ part, p.Carries c s fetched part := by
  obtain ⟨group, hgroup, hp⟩ := List.mem_flatten.mp hmem
  obtain ⟨before, after, rfl⟩ := List.append_of_mem hgroup
  obtain ⟨_, arg, _, -, -, ⟨_, parts, -, -, -, hcarries⟩, -⟩ := exists_cons_of_forall₂_cons h
  obtain ⟨first, last, rfl⟩ := List.append_of_mem hp
  obtain ⟨_, part, _, -, -, hpart, -⟩ := exists_cons_of_forall₂_cons hcarries.flip
  exact ⟨part, hpart⟩

theorem Placed.exists_physicalReg {t : Target} {p : Placed} {root : RegId}
    (h : p.root? t = some root) :
    ∃ reg, p.dest.kind = .physicalReg reg ∧ t.registers.root reg = root := by
  rw [Placed.root?, rootOf] at h
  dsimp only at h
  split at h
  · next reg hreg => exact ⟨reg, hreg, Option.some.inj h⟩
  · cases h

namespace CallSite.IsSetUp

theorem incoming (hx : x.IsSetUp c f blocks before call) : x.reached.calling.Incoming :=
  ⟨hx.reaches.incoming.noted, hx.reaches.incoming.used⟩

theorem paramIds_staged (hx : x.IsSetUp c f blocks before call) :
    x.staged.function.paramIds = x.reached.function.paramIds := by
  obtain ⟨fetched, groups, hfetches, -, -⟩ := delivers_placeArguments hx.incoming hx.places
  exact hfetches.paramIds

section Arch

variable (a : Arch) (hc : c.target = a.target) (hx : x.IsSetUp c f blocks before call)
include hc hx

/-- **The arguments of a call go to distinct registers**, none of which is the stack pointer. -/
theorem exists_roots : ∃ roots : List RegId, x.placed.map (Placed.root? c.target) = roots.map some ∧
    roots.Nodup ∧ ∀ root ∈ roots, root ∈ a.target.passing.map a.target.registers.root := by
  have hregular := a.regular
  have hremaining : Function.remainingRoots c.target 0 0 = a.target.argumentRoots := by rw [hc]; rfl
  obtain ⟨roots, hroots, hnodup, hmem⟩ := roots_placeArguments a hc hx.places
    (by rw [hremaining]; exact hregular.arguments_nodup)
    (by rw [hremaining, hc]; exact hregular.buffer_apart)
  refine ⟨roots, hroots, hnodup, fun root hroot => ?_⟩
  rcases hmem root hroot with h | ⟨rfl, -⟩
  · have hargument : root ∈ a.target.argumentRoots := hremaining ▸ h
    refine List.map_subset _ (fun reg hreg => ?_) hargument
    simp only [List.mem_append] at hreg
    rcases hreg with hreg | hreg <;> simp [Target.passing, hreg]
  · rw [hc]
    exact List.mem_map_of_mem (by simp [Target.passing])

theorem exists_dest {p : Placed} (hp : p ∈ x.placed) : ∃ reg, p.dest.kind = .physicalReg reg ∧
    a.target.registers.root reg ∈ a.target.passing.map a.target.registers.root := by
  obtain ⟨roots, hroots, -, hmem⟩ := hx.exists_roots a hc
  have hroot : p.root? c.target ∈ roots.map some := hroots ▸ List.mem_map_of_mem hp
  obtain ⟨root, hroot, heq⟩ := List.mem_map.mp hroot
  obtain ⟨reg, hreg, hsame⟩ := Placed.exists_physicalReg heq.symm
  exact ⟨reg, hreg, by rw [← hc, hsame, hc]; exact hmem root hroot⟩

theorem moves_write {i : Instruction} (hi : i ∈ x.moves c) :
    i.isCall = false ∧ i.isReturn = false ∧ i.writesPhysical := by
  obtain ⟨p, hp, rfl⟩ := List.mem_map.mp hi
  obtain ⟨reg, hreg, -⟩ := hx.exists_dest a hc hp
  refine ⟨(flags_moveOf _ _).2, (flags_moveOf _ _).1, ?_⟩
  rw [Instruction.writesPhysical, def?_moveOf, Option.any_some, Operand.isPhysical, hreg]

end Arch

/-- The moves into argument registers read no incoming parameter. -/
theorem moves_spare (hx : x.IsSetUp c f blocks before call) {i : Instruction} (hi : i ∈ x.moves c) :
    ∀ o ∈ i.operands, x.staged.Spares o := by
  obtain ⟨p, hp, rfl⟩ := List.mem_map.mp hi
  obtain ⟨fetched, groups, -, hplaced, hgroups⟩ := delivers_placeArguments hx.incoming hx.places
  obtain ⟨part, hpart⟩ := exists_carries_of_mem hgroups (hplaced ▸ hp)
  exact hpart.spares

theorem exists_fetchCode (hx : x.IsSetUp c f blocks before call) :
    ∃ code, x.staged.code.toList = x.reached.code.toList ++ code ∧ ∀ i ∈ code, IsInner i := by
  have hstaging : Evolves IsInner (fun _ => True) x.reached.calling x.staged :=
    ((goes_placeArguments (fun _ hi _ _ => hi) x.callee _ _ {}).ok _ _ hx.places).1
  obtain ⟨code, hcode, hinner⟩ := exists_code_of_evolves hstaging
  exact ⟨code, hcode, hinner⟩

/-- **The window of a call is its moves into argument registers.** -/
theorem window_eq (a : Arch) (hc : c.target = a.target) (hx : x.IsSetUp c f blocks before call) :
    window before = x.moves c := by
  obtain ⟨code, hcode, hinner⟩ := hx.exists_fetchCode
  rw [hx.before_eq, hcode]
  refine window_append (fun first i rest hsplit hwrites => ?_) (fun i hi => ?_) fun i hi =>
    hx.moves_write a hc hi
  · exact hx.settled first i rest hsplit (writesPhysical_iff.mp hwrites)
  · refine ⟨(hinner i hi).not_call, (hinner i hi).not_return, ?_⟩
    rw [← Bool.not_eq_true, writesPhysical_iff]
    exact (hinner i hi).not_writesPhysical

end CallSite.IsSetUp

/-- **Behind the first write of an argument register, a lowered function reads no parameter until the
call.** -/
theorem not_readsParameter_of_lowerFunction (a : Arch) {g : Machine.Function}
    (h : lowerFunction a.target f = .ok g) {block : Machine.Block} (hblock : block ∈ g.blocks)
    {behind : List Instruction} (hsplit : block.instructions = before ++ call :: behind)
    (hcall : call.isCall) {i : Instruction} (hi : i ∈ window before) :
    ¬i.ReadsParameter g.paramIds := by
  obtain ⟨k, hk⟩ := List.mem_iff_getElem?.mp hblock
  obtain ⟨x, hx, hparams⟩ := isSetUp_of_lowerFunction h hk hsplit hcall
  rw [hx.window_eq a rfl] at hi
  rintro ⟨o, ho, hreads⟩
  have hspares := hx.moves_spare hi o (Instruction.mem_operands_of_mem_uses ho)
  rcases hreads with hparameter | ⟨base, offset, hkind, hbase⟩
  · rw [hspares.not_parameter] at hparameter
    cases hparameter
  · refine hspares.not_incoming base (by rw [Operand.unallocated?, hkind]) ?_
    rwa [hx.paramIds_staged, Function.paramIds, hparams]

end Lowering

end Retarget
