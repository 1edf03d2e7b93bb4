import Retarget.Proofs.Convention.CalleeSaved
import Retarget.Proofs.Convention.Passing
import Retarget.Proofs.Lowering.Placement
import Retarget.Proofs.Symbols.Arguments

/-!
# The code of a call

Each call of a function is lowered to one call, and nothing else is (`Reaches.callCount_add`), so a
call of a block is found in lowered code by counting.  In front of it stands its set-up
(`exists_callSite`).
-/

namespace Retarget

namespace Lowering

open Machine

variable {c : Scope} {s s' : State} {f : Ir.Function} {todo : List Ir.Instruction} {b : Ir.Block}
  {rest : List Ir.Block} {next : Option String}

/-! ## Calls in lowered code -/

variable {a : Arch} {g : Machine.Function} {result : Option Ir.TempId} {callee : String}
  {args : List Ir.Value} {ty : Ir.Ty} {returnBuffer : Option UInt64}

/-- Lowering a call reaches its call site, behind which it receives the result. -/
theorem exists_site_of_lowerCall
    (hs : Reaches c f (.call result callee args ty returnBuffer :: todo) b rest s)
    (h : (c.lowerCall result callee args ty (returnBuffer.map (·.toNat))).run s = .ok ((), s')) :
    ∃ (x : CallSite) (behind : List Instruction), x.args = args ∧ x.returnBuffer = returnBuffer ∧
      x.reached = s ∧
      x.IsSetUp c f s.function.blocks (x.staged.code.toList ++ x.moves c)
        (.generic .call [.function callee]) ∧
      s'.code.toList =
        x.staged.code.toList ++ x.moves c ++ .generic .call [.function callee] :: behind := by
  rw [lowerCall_eq_bind] at h
  obtain ⟨_, s₂, hcall, hreceive⟩ := run_bind_eq_ok.mp h
  obtain ⟨placed, s₁, hplaced, rfl⟩ := run_lowerCall_none.mp hcall
  have hreceived : Evolves IsQuiet (fun _ => True) _ s' :=
    ((goes_receive (fun _ _ => trivial) callee ty result).ok _ _ hreceive).1
  obtain ⟨behind, hbehind, -⟩ := exists_code_of_evolves hreceived
  let x : CallSite := ⟨result, callee, args, ty, returnBuffer, todo, b, rest, s, s₁, placed⟩
  refine ⟨x, behind, rfl, rfl, rfl, ⟨hs, hs.arranged.settled, hplaced, rfl, rfl, rfl⟩, ?_⟩
  rw [hbehind, State.code_append, CallSite.moves]
  simp [x]

/-- **Every call of a block has its set-up in the lowered block**, behind as many calls as are in
front of it. -/
theorem exists_callSite (h : lowerFunction a.target f = .ok g) {k : Nat}
    (hb : f.blocks[k]? = some b) {done : List Ir.Instruction}
    (hi : b.instructions = done ++ .call result callee args ty returnBuffer :: todo) :
    ∃ (x : CallSite) (block : Machine.Block) (before behind : List Instruction),
      x.args = args ∧ x.returnBuffer = returnBuffer ∧ g.blocks[k]? = some block ∧
      block.instructions = before ++ .generic .call [.function callee] :: behind ∧
      x.IsSetUp ⟨a.target, f.name⟩ f (g.blocks.take k) before
        (.generic .call [.function callee]) ∧
      x.reached.function.params = g.params ∧
      x.reached.code.toList.countP a.calls = done.countP (·.isCall) := by
  obtain ⟨s₀, s', hcloses⟩ := exists_lowered_block h hb
  obtain ⟨hreaches, hrun, hblock, -, hclosed⟩ := hcloses
  obtain ⟨hgrows, -⟩ := grows_forM hreaches.sound hrun
  rw [hi] at hreaches hrun
  obtain ⟨s, hs, hrun⟩ := exists_split_of_forM hreaches hrun
  obtain ⟨hgrows', -⟩ := grows_forM hs.sound hrun
  rw [List.forM] at hrun
  obtain ⟨_, s₁, hfirst, hrun⟩ := run_bind_eq_ok.mp hrun
  obtain ⟨x, behind, hargs, hbuffer, hreached, hx, hcode⟩ := exists_site_of_lowerCall hs hfirst
  obtain ⟨hgrows'', -⟩ := grows_forM (hs.step hfirst).sound hrun
  obtain ⟨more, hmore⟩ := hgrows''.code
  have hblocks : s.function.blocks = g.blocks.take k :=
    hgrows'.blocks.symm.trans (hgrows.blocks.trans hclosed)
  rw [hblocks] at hx
  refine ⟨x, _, _, behind ++ more, hargs, hbuffer, hblock, ?_, hx, ?_, ?_⟩
  · rw [← hmore, hcode, List.append_assoc, List.cons_append]
  · exact hx.reaches.params_of_lowerFunction h
      (List.ne_nil_of_mem (List.mem_of_getElem? hblock))
  · have hcount := hs.callCount_add
    rw [hi, List.countP_append, Nat.add_right_cancel_iff] at hcount
    rw [hreached, ← hcount, State.callCount]
    exact List.countP_congr fun i hi => by
      rw [Function.calls_eq_isCall (hs.tracked.code i hi)]

end Lowering

end Retarget
