import Retarget.Proofs.Convention.Agreement
import Retarget.Proofs.Convention.Staging

/-!
# Where calls are set up

Every call in lowered code is one that lowering came to (`Scope.SetsUp`): right before it stand the
code that fetches its arguments and one move for each argument register, and these registers are
distinct.  Behind any other write of a physical register there is a call or a return before the next
set-up (`Settled`), so the first write of an argument register is the first of the moves.
-/

namespace Retarget.Lowering

open Machine

variable {c : Scope} {s s' s₁ : State}

/-! ## Distinct registers -/

def Placed.root? (t : Target) (p : Placed) : Option RegId := (rootOf t p.dest).2

section Roots

variable (a : Arch) (hc : c.target = a.target)
include hc

theorem root?_of_dest {p : Placed} {root : RegId} {ty : LowType} (h : p.dest = c.physical root ty) :
    p.root? c.target = some (c.target.registers.root root) := by
  rw [Placed.root?, h, rootOf_physical a hc]

theorem map_root_zip {α : Type} {g : α × RegId → Operand × Operand}
    (hg : ∀ x, ∃ ty, (g x).1 = c.physical x.2 ty) (xs : List α) (registers : List RegId) :
    ((xs.zip registers).map g).map (fun part => (rootOf c.target part.1).2) =
      ((registers.take ((xs.zip registers).map g).length).map c.target.registers.root).map some := by
  induction xs generalizing registers with
  | nil => simp
  | cons x xs ih =>
    cases registers with
    | nil => simp
    | cons reg registers =>
      obtain ⟨ty, hty⟩ := hg (x, reg)
      rw [List.zip_cons_cons, List.map_cons, List.map_cons, List.length_cons, List.take_succ_cons,
        List.map_cons, List.map_cons, ih registers, hty, rootOf_physical a hc]

theorem roots_placeAggregate {callee : String} {index : Nat} {arg : Ir.Value} {cursor : Cursor}
    {r : List Placed × Cursor}
    (h : (c.placeAggregate callee index arg cursor).run s = .ok (r, s')) :
    r.1.map (Placed.root? c.target) = (((c.target.convention.arguments.drop cursor.next).take
        r.1.length).map c.target.registers.root).map some ∧
      r.2 = { cursor with next := cursor.next + r.1.length } := by
  obtain ⟨_, ps, s₁, -, -, hps, hplaced, hcursor⟩ := exists_of_run_placeAggregate h
  have hdest := mapM_stagePart_dest hplaced
  have hlength : r.1.length = ps.length := by simpa using congrArg List.length hdest
  refine ⟨?_, hcursor⟩
  have hroots : r.1.map (Placed.root? c.target) =
      ps.map fun part => (rootOf c.target part.1).2 := by
    have hmap := congrArg (List.map fun o => (rootOf c.target o).2) hdest
    rwa [List.map_map, List.map_map] at hmap
  rw [hroots, hlength]
  obtain ⟨bytes, -, -, ⟨home, -, -, rfl⟩ | ⟨-, location, -, rfl⟩⟩ :=
    run_aggregateParts_eq_ok.mp hps
  · exact map_root_zip a hc (fun x => ⟨_, rfl⟩) home _
  · exact map_root_zip a hc (fun x => ⟨_, rfl⟩) _ _

/-- One argument takes the register of the return buffer or argument registers that are left. -/
theorem roots_placeOne {callee : String} {returnBuffer : Option Nat} {arg : Ir.Value} {index : Nat}
    {cursor : Cursor} {r : List Placed × Cursor}
    (h : (c.placeOne callee returnBuffer arg index cursor).run s = .ok (r, s')) :
    ∃ roots : List RegId, r.1.map (Placed.root? c.target) = roots.map some ∧
      (returnBuffer = some index ∧ roots = [c.target.bufferRoot] ∧ r.2 = cursor ∨
        (Function.remainingRoots c.target cursor.next cursor.nextFloat).Perm
          (roots ++ Function.remainingRoots c.target r.2.next r.2.nextFloat)) := by
  rw [Scope.placeOne] at h
  split at h
  · next hbuffer =>
    obtain ⟨placed, s₁, hplaced, h⟩ := run_bind_eq_ok.mp h
    cases h
    refine ⟨[c.target.bufferRoot], ?_, .inl ⟨by simpa using hbuffer, rfl, rfl⟩⟩
    rw [List.map_singleton, root?_of_dest a hc (placeReturnBuffer_dest hplaced)]
    rfl
  · split at h
    · obtain ⟨hroots, hcursor⟩ := roots_placeAggregate a hc h
      refine ⟨_, hroots, .inr ?_⟩
      rw [hcursor, Function.remainingRoots, Function.remainingRoots, ← List.map_append,
        ← List.append_assoc, ← List.drop_drop, List.take_append_drop]
    · obtain ⟨r', s₁, hplaced, h⟩ := run_bind_eq_ok.mp h
      cases h
      obtain ⟨reg, hreg, hdest, hcursor⟩ := placeScalar_dest hplaced
      refine ⟨[c.target.registers.root reg], ?_, .inr ?_⟩
      · rw [List.map_singleton, root?_of_dest a hc hdest]
        rfl
      · rw [hcursor, Function.remainingRoots, Function.remainingRoots, ← List.map_singleton,
          ← List.map_append]
        refine List.Perm.map _ ?_
        cases hfloat : arg.ty.isFloat with
        | true =>
          rw [hfloat] at hreg
          have hdrop : c.target.convention.floatArguments.drop cursor.nextFloat =
              reg :: c.target.convention.floatArguments.drop (cursor.nextFloat + 1) :=
            Function.drop_of_getElem? hreg
          rw [hdrop]
          exact List.perm_middle
        | false =>
          rw [hfloat] at hreg
          have hdrop : c.target.convention.arguments.drop cursor.next =
              reg :: c.target.convention.arguments.drop (cursor.next + 1) :=
            Function.drop_of_getElem? hreg
          rw [hdrop]
          exact List.Perm.refl _

/-- **The arguments of a call go to distinct registers.** -/
theorem roots_placeArguments {callee : String} {returnBuffer : Option Nat} {args : List Ir.Value}
    {k : Nat} {cursor : Cursor} {placed : List Placed}
    (h : (c.placeArguments callee returnBuffer (args.zipIdx k) cursor).run s = .ok (placed, s'))
    (hnodup : (Function.remainingRoots c.target cursor.next cursor.nextFloat).Nodup)
    (hbuffer : c.target.bufferRoot ∉
      Function.remainingRoots c.target cursor.next cursor.nextFloat) :
    ∃ roots : List RegId, placed.map (Placed.root? c.target) = roots.map some ∧ roots.Nodup ∧
      ∀ root ∈ roots, root ∈ Function.remainingRoots c.target cursor.next cursor.nextFloat ∨
        root = c.target.bufferRoot ∧ ∃ j ≥ k, returnBuffer = some j := by
  induction args generalizing s k cursor placed with
  | nil =>
    cases h
    exact ⟨[], rfl, List.nodup_nil, by simp⟩
  | cons arg args ih =>
    rw [List.zipIdx_cons] at h
    obtain ⟨r, others, s₁, hone, hothers, rfl⟩ := exists_of_placeArguments_cons h
    obtain ⟨first, hfirst, hcase⟩ := roots_placeOne a hc hone
    have hsub : ∀ root ∈ Function.remainingRoots c.target r.2.next r.2.nextFloat,
        root ∈ Function.remainingRoots c.target cursor.next cursor.nextFloat := by
      rcases hcase with ⟨-, -, hcursor⟩ | hperm
      · rw [hcursor]
        exact fun _ h => h
      · exact fun root hroot => hperm.mem_iff.mpr (List.mem_append_right _ hroot)
    have hnodup' : (Function.remainingRoots c.target r.2.next r.2.nextFloat).Nodup := by
      rcases hcase with ⟨-, -, hcursor⟩ | hperm
      · rwa [hcursor]
      · exact (List.nodup_append.mp (hperm.nodup_iff.mp hnodup)).2.1
    obtain ⟨rest, hrest, hdistinct, hmem⟩ := ih hothers hnodup' fun h => hbuffer (hsub _ h)
    refine ⟨first ++ rest, by rw [List.map_append, List.map_append, hfirst, hrest], ?_, ?_⟩
    · rcases hcase with ⟨hindex, rfl, -⟩ | hperm
      · refine List.nodup_cons.mpr ⟨fun h => ?_, hdistinct⟩
        rcases hmem _ h with h | ⟨-, j, hj, hj'⟩
        · exact hbuffer (hsub _ h)
        · rw [hindex, Option.some.injEq] at hj'
          omega
      · obtain ⟨hfirst, -, hapart⟩ := List.nodup_append.mp (hperm.nodup_iff.mp hnodup)
        refine List.nodup_append.mpr ⟨hfirst, hdistinct, fun x hx y hy => ?_⟩
        rcases hmem y hy with h | ⟨rfl, -⟩
        · exact hapart x hx y h
        · rintro rfl
          exact hbuffer (hperm.mem_iff.mpr (List.mem_append_left _ hx))
    · refine List.forall_mem_append.mpr ⟨fun root hroot => ?_, fun root hroot => ?_⟩
      · rcases hcase with ⟨hindex, rfl, -⟩ | hperm
        · exact .inr ⟨List.mem_singleton.mp hroot, k, Nat.le_refl _, hindex⟩
        · exact .inl (hperm.mem_iff.mpr (List.mem_append_left _ hroot))
      · rcases hmem root hroot with h | ⟨hroot, j, hj, hj'⟩
        · exact .inl (hsub root h)
        · exact .inr ⟨hroot, j, by omega, hj'⟩

end Roots

/-! ## Writes of physical registers -/

def WritesPhysical (i : Instruction) : Prop := ∃ o, i.def? = some o ∧ o.isPhysical

/-- Behind every write of a physical register there is a call or a return. -/
def Settled (code : List Instruction) : Prop :=
  ∀ before i behind, code = before ++ i :: behind → WritesPhysical i →
    ∃ j ∈ behind, j.isCall ∨ j.isReturn

theorem mem_operands_of_def? {i : Instruction} {o : Operand} (h : i.def? = some o) :
    o ∈ i.operands := by
  rw [Instruction.def?] at h
  split at h
  · exact List.mem_of_mem_head? h
  · cases h

theorem IsInner.not_writesPhysical {i : Instruction} (h : IsInner i) : ¬WritesPhysical i := by
  rintro ⟨o, hdef, hphysical⟩
  rw [h.not_physical o (mem_operands_of_def? hdef)] at hphysical
  cases hphysical

theorem settled_of_forall {code : List Instruction} (h : ∀ i ∈ code, ¬WritesPhysical i) :
    Settled code := by
  rintro before i behind rfl hwrites
  exact absurd hwrites (h i (by simp))

theorem settled_concat {code : List Instruction} {last : Instruction}
    (h : last.isCall ∨ last.isReturn) : Settled (code ++ [last]) := by
  intro before i behind hsplit hwrites
  rcases List.eq_nil_or_concat behind with rfl | ⟨behind, j, rfl⟩
  · -- the last instruction defines nothing
    obtain ⟨-, hlast⟩ := List.append_inj' hsplit rfl
    cases hlast
    obtain ⟨o, hdef, -⟩ := hwrites
    rw [Instruction.def?, Instruction.hasDef, Instruction.isEffect] at hdef
    rcases h with h | h <;> simp [h] at hdef
  · have hlast : code ++ [last] = (before ++ i :: behind) ++ [j] := by simpa using hsplit
    obtain ⟨-, hlast⟩ := List.append_inj' hlast rfl
    cases hlast
    exact ⟨last, by simp, h⟩

theorem Settled.append {xs ys : List Instruction} (hxs : Settled xs) (hys : Settled ys) :
    Settled (xs ++ ys) := by
  intro before i behind hsplit hwrites
  rcases List.append_eq_append_iff.mp hsplit with ⟨rest, rfl, hrest⟩ | ⟨rest, rfl, hrest⟩
  · exact hys rest i behind hrest hwrites
  · cases rest with
    | nil => exact hys [] i behind hrest.symm hwrites
    | cons j rest =>
      cases hrest
      obtain ⟨j, hj, hends⟩ := hxs before i rest rfl hwrites
      exact ⟨j, List.mem_append_left _ hj, hends⟩

/-! ## Calls -/

/-- A call in a function, with the states in which lowering comes to it and has chosen the registers
of its arguments. -/
structure CallSite where
  result : Option Ir.TempId
  callee : String
  args : List Ir.Value
  ty : Ir.Ty
  returnBuffer : Option UInt64
  todo : List Ir.Instruction
  block : Ir.Block
  rest : List Ir.Block
  reached : State
  staged : State
  placed : List Placed

def CallSite.moves (x : CallSite) (c : Scope) : List Instruction := x.placed.map (c.moveOf x.staged)

/-- Lowering comes to the call behind the given blocks, and the code before the call ends with its
set-up. -/
structure CallSite.IsSetUp (x : CallSite) (c : Scope) (f : Ir.Function)
    (blocks : List Machine.Block) (before : List Instruction) (call : Instruction) : Prop where
  reaches : Reaches c f (.call x.result x.callee x.args x.ty x.returnBuffer :: x.todo) x.block
    x.rest x.reached
  settled : Settled x.reached.code.toList
  places : (c.placeArguments x.callee (x.returnBuffer.map (·.toNat)) x.args.zipIdx {}).run
    x.reached.calling = .ok (x.placed, x.staged)
  blocks_eq : x.reached.function.blocks = blocks
  before_eq : before = x.staged.code.toList ++ x.moves c
  call_eq : call = .generic .call [.function x.callee]

/-- Every call so far was set up, and behind every other write of a physical register there is a
call or a return. -/
structure State.Arranged (c : Scope) (f : Ir.Function) (s : State) : Prop where
  settled : Settled s.code.toList
  code : ∀ before call behind, s.code.toList = before ++ call :: behind → call.isCall →
    ∃ x : CallSite, x.IsSetUp c f s.function.blocks before call
  blocks : ∀ (k : Nat) (block : Machine.Block) before call behind,
    s.function.blocks[k]? = some block → block.instructions = before ++ call :: behind →
    call.isCall → ∃ x : CallSite, x.IsSetUp c f (s.function.blocks.take k) before call

variable {f : Ir.Function}

theorem exists_split_of_isCall {old code before behind : List Instruction} {call : Instruction}
    (hcalls : ∀ i ∈ code, i.isCall = false) (hsplit : old ++ code = before ++ call :: behind)
    (hcall : call.isCall) : ∃ behind', old = before ++ call :: behind' := by
  have hnot : call ∉ code := fun hmem => by simp [hcalls call hmem] at hcall
  rcases List.append_eq_append_iff.mp hsplit with ⟨rest, rfl, hrest⟩ | ⟨rest, hold, hrest⟩
  · exact absurd (by simp [hrest]) hnot
  · cases rest with
    | nil =>
      have hfirst : call :: behind = code := hrest
      exact absurd (hfirst ▸ List.mem_cons_self) hnot
    | cons j rest =>
      cases hrest
      exact ⟨rest, hold⟩

namespace State.Arranged

theorem extend (h : s.Arranged c f) {code : List Instruction}
    (hblocks : s'.function.blocks = s.function.blocks)
    (hcode : s'.code.toList = s.code.toList ++ code) (hcalls : ∀ i ∈ code, i.isCall = false)
    (hsettled : Settled code) : s'.Arranged c f := by
  refine ⟨hcode ▸ h.settled.append hsettled, fun before call behind hsplit hcall => ?_, ?_⟩
  · rw [hblocks]
    obtain ⟨behind', hold⟩ := exists_split_of_isCall hcalls (hcode.symm.trans hsplit) hcall
    exact h.code before call behind' hold hcall
  · rw [hblocks]
    exact h.blocks

theorem same (h : s.Arranged c f) (hblocks : s'.function.blocks = s.function.blocks)
    (hcode : s'.code = s.code) : s'.Arranged c f :=
  have hsame : s'.code.toList = s.code.toList ++ [] := by simp [hcode]
  h.extend hblocks hsame (by simp) (settled_of_forall (by simp))

theorem call (h : s.Arranged c f) {x : CallSite} {code : List Instruction} {last : Instruction}
    (hblocks : s'.function.blocks = s.function.blocks)
    (hcode : s'.code.toList = s.code.toList ++ (code ++ [last]))
    (hcalls : ∀ i ∈ code, i.isCall = false) (hlast : last.isCall)
    (hx : x.IsSetUp c f s.function.blocks (s.code.toList ++ code) last) : s'.Arranged c f := by
  refine ⟨?_, fun before call behind hsplit hcall => ?_, ?_⟩
  · rw [hcode]
    exact h.settled.append (settled_concat (.inl hlast))
  · rw [hblocks]
    rw [hcode, ← List.append_assoc] at hsplit
    rcases List.eq_nil_or_concat behind with rfl | ⟨behind, j, rfl⟩
    · obtain ⟨rfl, heq⟩ := List.append_inj' hsplit rfl
      cases heq
      exact ⟨x, hx⟩
    · -- an earlier call is one of those that were set up before
      have hsplit' : s.code.toList ++ code ++ [last] = (before ++ call :: behind) ++ [j] := by
        simpa using hsplit
      obtain ⟨behind', hold⟩ :=
        exists_split_of_isCall hcalls (List.append_inj' hsplit' rfl).1 hcall
      exact h.code before call behind' hold hcall
  · rw [hblocks]
    exact h.blocks

end State.Arranged

end Retarget.Lowering
