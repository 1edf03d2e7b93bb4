import Retarget.Proofs.Convention.CalleeSaved
import Retarget.Proofs.Stack.Balance

/-!
# Saved registers in the code of a module

Selection names no new register, and frame code names the stack pointer and what it saves.  So native
code names a callee-saved register only if the function has it noted, and then the frame code stores
it at the entry, in its full width, and loads it from the same place before every first return
(`Options.callee_saved_kept`).
-/

namespace Retarget

open Machine Target

namespace Machine.Function

variable {a : Arch} {f g : Function}

/-! ## Selection -/

/-- **Native code names callee-saved registers only if they are noted**, like the allocated code it
comes from. -/
theorem Covers.selectInstructions (hf : f.Covers a) (hallocated : f.All (·.Allocated a.target))
    (h : f.selectInstructions a.target = .ok g) :
    g.Covers a ∧ g.usedCalleeSaved = f.usedCalleeSaved := by
  have hall : g.All (·.Covered a f.usedCalleeSaved f.isCaller) := by
    refine All.selectInstructions (P := fun i => i.Covered a f.usedCalleeSaved f.isCaller ∧
      i.Allocated a.target) (fun i hi => ⟨hf i hi, hallocated i hi⟩) (fun i new hi hnew => ?_)
      (fun ha i hi => ?_) h
    · obtain ⟨_, _, _, ⟨-, rfl⟩ | ⟨op, r, hop, hr, rfl⟩⟩ := hnew
      · exact List.forall_mem_singleton.mpr hi.1
      · exact fun j hj => hi.1.of_from (from_select hop hi.2.final hr j hj)
    · subst ha
      exact hi.of_from (AArch64.from_narrowSource i)
  have hsame := selectInstructions_eq_withBlocks h
  have hused : g.usedCalleeSaved = f.usedCalleeSaved := by rw [hsame]
  have hcaller : g.isCaller = f.isCaller := by rw [hsame]
  exact ⟨by rwa [Covers, hused, hcaller], hused⟩

end Machine.Function

/-! ## Frame code -/

namespace Arch

variable {a : Arch} {i : Instruction} {e : StackEffect}

theorem named_of_stackEffect (h : a.stackEffect i = e) (he : e ≠ .none ∧ e ≠ .move none)
    {o : Operand} (ho : o ∈ i.operands) {reg : RegId} (hreg : o.kind = .physicalReg reg) :
    reg = a.target.registers.stack ∨ ∃ n, e = .store reg n ∨ e = .load reg n := by
  have hmem : .physicalReg reg ∈ i.operands.map (·.kind) := hreg ▸ List.mem_map_of_mem ho
  subst h
  rw [stackEffect] at he ⊢
  generalize i.operands.map (·.kind) = kinds at he hmem ⊢
  generalize a.role i = role at he ⊢
  split at he
  · simp at hmem
  · split at he
    · next hdest =>
      rw [if_pos hdest]
      left
      split at he
      · split at he
        · next hbase => simpa [hdest, hbase] using hmem
        · simp at he
      · split at he
        · next hbase => simpa [hdest, hbase] using hmem
        · simp at he
      · simp at he
    · next hdest =>
      rw [if_neg hdest]
      split at he
      · split at he
        · next hbase =>
          rw [if_pos hbase]
          simp only [hbase, List.mem_cons, Operand.Kind.physicalReg.injEq, reduceCtorEq,
            List.not_mem_nil, or_false] at hmem
          rcases hmem with rfl | rfl
          · exact .inr ⟨_, .inl rfl⟩
          · exact .inl rfl
        · simp at he
      · split at he
        · next hbase =>
          rw [if_pos hbase]
          simp only [hbase, List.mem_cons, Operand.Kind.physicalReg.injEq, reduceCtorEq,
            List.not_mem_nil, or_false] at hmem
          rcases hmem with rfl | rfl
          · exact .inr ⟨_, .inr rfl⟩
          · exact .inl rfl
        · simp at he
      · simp at he

theorem role_of_calls (h : a.calls i) : a.role i = .plain := by
  rw [calls] at h
  rw [role]
  split
  · rfl
  · next number hcode =>
    replace h : a.target.templates[number]?.any (·.flags.call) := by
      rwa [hcode] at h
    have hroles : ∀ number < a.target.templates.length,
        a.target.templates[number]?.any (·.flags.call) → a.nativeRole number = .plain := by
      cases a <;> decide +kernel
    refine hroles number ?_ h
    by_contra hlarge
    rw [List.getElem?_eq_none (Nat.le_of_not_lt hlarge)] at h
    cases h

theorem full_of_saved {reg : RegId}
    (h : reg = a.target.registers.link ∨ reg ∈ a.target.convention.calleeSaved) :
    a.target.registers.root reg = reg ∧ (a.target.registers.get? reg).isSome := by
  have hfull : ∀ reg ∈ a.target.registers.link :: a.target.convention.calleeSaved,
      a.target.registers.root reg = reg ∧ (a.target.registers.get? reg).isSome := by
    cases a <;> decide +kernel
  exact hfull reg (List.mem_cons.mpr h)

end Arch

namespace Machine.Function

variable {a : Arch} {f g : Function} {used : List RegId} {isCaller : Bool} {i : Instruction}

theorem covered_of_stackEffect (he : a.stackEffect i ≠ .none ∧ a.stackEffect i ≠ .move none)
    (hsaved : ∀ reg n, a.stackEffect i = .store reg n ∨ a.stackEffect i = .load reg n →
      a.Spares used (a.target.registers.root reg)) : i.Covered a used isCaller := by
  refine ⟨fun o ho root hroot => ?_, fun hcalls => ?_⟩
  · obtain ⟨kind, ty, regClass⟩ := o
    cases kind with
    | physicalReg reg =>
      cases hroot
      rcases Arch.named_of_stackEffect rfl he ho rfl with rfl | ⟨n, hn⟩
      · exact fun hmem => absurd hmem a.not_calleeSaved.2.1
      · exact hsaved reg n hn
    | _ => cases hroot
  · have hrole := Arch.role_of_calls hcalls
    rw [Arch.stackEffect, hrole] at he
    split at he
    · simp at he
    · split at he <;> simp at he

theorem spares_of_registersToSave (hused : f.usedCalleeSaved ⊆ a.target.convention.calleeSaved)
    {reg : RegId} (h : reg ∈ f.registersToSave a.target) :
    (a.target.registers.root reg = reg ∧ (a.target.registers.get? reg).isSome) ∧
      a.Spares f.usedCalleeSaved reg := by
  rcases List.mem_append.mp h with h | h
  · split at h
    · rw [List.mem_singleton.mp h]
      exact ⟨Arch.full_of_saved (.inl rfl), fun hmem => absurd hmem a.not_calleeSaved.2.2⟩
    · cases h
  · exact ⟨Arch.full_of_saved (.inr (hused h)), fun _ => h⟩

/-- **Frame code names callee-saved registers only if they are noted.** -/
theorem Covers.insertFrameCode (hf : f.Covers a)
    (hused : f.usedCalleeSaved ⊆ a.target.convention.calleeSaved)
    (hsave : ∀ reg ∈ f.registersToSave a.target, reg ≠ a.target.registers.stack)
    (h : f.insertFrameCode a.target = .ok g) :
    g.Covers a ∧ g.usedCalleeSaved = f.usedCalleeSaved := by
  rcases insertFrameCode_cases h with ⟨rfl, -, -⟩ |
    ⟨bytes, size, entry, leave, f₂, -, -, -, -, hentry, hleave, hreturns, h⟩
  · exact ⟨hf, rfl⟩
  · have hcode : ∀ {es js}, List.Forall₂ a.Enacts js es →
        (∀ e ∈ es, (e ≠ .none ∧ e ≠ .move none) ∧ ∀ reg n, e = .store reg n ∨ e = .load reg n →
          reg ∈ f.registersToSave a.target) → ∀ i ∈ js, i.Covered a f.usedCalleeSaved f.isCaller := by
      intro es js hjs hes i hi
      have hperforms := Arch.performs_of_enacts hjs fun e he reg n hn =>
        hsave reg ((hes e he).2 reg n hn)
      obtain ⟨hknown, hplace⟩ := hes _ (Arch.map_stackEffect hperforms ▸ List.mem_map_of_mem hi)
      refine covered_of_stackEffect hknown fun reg n hn => ?_
      obtain ⟨⟨hroot, -⟩, hspared⟩ := spares_of_registersToSave hused (hplace reg n hn)
      rwa [hroot]
    have hnodup : (f.returns.reverse.map (·.1)).Nodup := by
      rw [List.map_reverse, List.nodup_reverse]
      exact f.nodup_returns
    obtain ⟨hf₂, -, hreceives⟩ := insertAll_eq_ok hleave hnodup hreturns
    obtain ⟨js, hjs, rfl⟩ := insertSelected_eq_ok hentry h
    have hcovered : f₂.All (·.Covered a f.usedCalleeSaved f.isCaller) := by
      intro i hi
      obtain ⟨new, hnew, hi⟩ := mem_instructions.mp hi
      obtain ⟨c, hc⟩ := List.mem_iff_getElem?.mp hnew
      obtain ⟨old, hold, hnew⟩ := hreceives c new hc
      have hold : ∀ i ∈ old.instructions, i.Covered a f.usedCalleeSaved f.isCaller :=
        fun i hi => hf i (mem_instructions.mpr ⟨old, List.mem_of_getElem? hold, hi⟩)
      rcases hnew with ⟨-, rfl⟩ | ⟨k, js', -, hjs', rfl⟩
      · exact hold i hi
      · rcases mem_splice hi with hi | hi
        · exact hold i hi
        · refine hcode hjs' (fun e he => ⟨StackView.known_of_mem_leaveEffects e he, ?_⟩) i hi
          exact fun reg n hn => mem_registersToSave_of_leaveEffects he hn
    have hused₂ : f₂.usedCalleeSaved = f.usedCalleeSaved := by rw [hf₂]
    have hcaller₂ : f₂.isCaller = f.isCaller := by rw [hf₂]
    refine ⟨?_, hused₂⟩
    show (f₂.modifyBlock 0 _).All (·.Covered a f₂.usedCalleeSaved f₂.isCaller)
    rw [hused₂, hcaller₂]
    refine hcovered.spliceBlock (hcode hjs fun e he => ⟨?_, fun reg n hn => ?_⟩)
    · exact StackView.known_of_mem_enterEffects e he
    · exact mem_registersToSave_of_enterEffects he hn

/-- Registers are saved at places in a frame of `size` bytes: the first block starts with a move of
the stack pointer and a store of each register in its full width, and every block has loads of them
from the same places, and the move back, right before its first return.  The stack pointer stays in
between. -/
structure Saves (a : Arch) (size : Nat) (places : List (RegId × Int)) (f : Function) : Prop where
  full : ∀ reg ∈ places.map (·.1),
    a.target.registers.root reg = reg ∧ (a.target.registers.get? reg).isSome
  blocks : ∀ b block, f.blocks[b]? = some block → ∃ entry body tail,
    block.instructions = entry ++ (body ++ tail) ∧
    List.Forall₂ a.Performs entry (if b = 0 then StackView.enterEffects size places else []) ∧
    (∀ i ∈ body, i.Steady a ∧ a.role i ≠ .ret) ∧
    (tail = [] ∨ ∃ exit ret rest, tail = exit ++ ret :: rest ∧
      List.Forall₂ a.Performs exit (StackView.leaveEffects size places) ∧ a.role ret = .ret)

theorem Framed.saves {size : Nat} {places : List (RegId × Int)} (h : Framed a size places f)
    (hused : f.usedCalleeSaved ⊆ a.target.convention.calleeSaved) (hplaces : places ≠ []) :
    f.Saves a size places := by
  refine ⟨fun reg hreg => ?_, fun b block hblock => ?_⟩
  · rw [← h.saved] at hreg
    exact (spares_of_registersToSave hused hreg).1
  · obtain ⟨pre, body, tail, hcode, hframed⟩ := h.blocks b block hblock
    refine ⟨pre, body, tail, hcode, ?_, hframed.steady, ?_⟩
    · simpa only [beq_iff_eq] using hframed.stores hplaces
    · rcases hframed.leaves with rfl | ⟨exit, ret, rest, rfl, -, -, hret, hloads⟩
      · exact .inl rfl
      · exact .inr ⟨exit, ret, rest, rfl, hloads hplaces, hret⟩

section

variable {f₀ f₁ f₂ f₃ : Function} (h₀ : a.target.Produces f₀) (h₁ : f₀.legalize a.target = .ok f₁)
  (h₂ : (f₁.selectClasses a.target).allocateRegisters a.target = .ok f₂)
  (h₃ : f₂.selectInstructions a.target = .ok f₃) (h : f₃.insertFrameCode a.target = .ok f)
include h₀ h₁ h₂ h₃ h

/-- The passes lead to code that names callee-saved registers only if they are noted. -/
theorem covers_of_passes : f.Covers a ∧ f.usedCalleeSaved ⊆ a.target.convention.calleeSaved ∧
    f.usedCalleeSaved.Nodup := by
  obtain ⟨hkept, hsave⟩ := kept_of_produces h₀ h₁ h₂
  have huntouched := ((untouched_of_produces h₀).legalize h₁).selectClasses
  obtain ⟨hallocated, hsub, hnodup⟩ :=
    ((covers_of_produces h₀).legalize h₁).selectClasses.allocateRegisters huntouched.unsaved h₂
  obtain ⟨hselected, hused₃⟩ := hallocated.selectInstructions (fun i hi => (hkept i hi).2) h₃
  obtain ⟨-, hsame⟩ := hkept.selectInstructions h₃
  obtain ⟨hcovers, hused⟩ := hselected.insertFrameCode (hused₃ ▸ hsub) (hsame ▸ hsave) h
  rw [hused, hused₃]
  exact ⟨hcovers, hsub, hnodup⟩

end

end Machine.Function

/-! ## Modules -/

namespace Options

open Function

variable {o : Options} {m : Ir.Module} {code : Machine.Module} {f : Function}

/-- **Callee-saved registers are kept**: in the code of a module, every function notes each
callee-saved register that it names, once, and is marked as a caller if it calls; the noted registers,
and the link register of a caller, are stored in full at the entry and loaded back from the same
places before the first return of every block. -/
theorem callee_saved_kept (h : o.machineCode m = .ok code) (hf : f ∈ code.functions) :
    (∀ i ∈ f.instructions, ∀ reg ∈ physicalRoots o.target i,
      reg ∈ o.target.convention.calleeSaved → reg ∈ f.usedCalleeSaved) ∧
    f.usedCalleeSaved.Nodup ∧
    (∀ i ∈ f.instructions, o.arch.calls i → f.isCaller) ∧
    (f.registersToSave o.target ≠ [] → ∃ size places,
      places.map (·.1) = f.registersToSave o.target ∧ f.Saves o.arch size places) := by
  obtain ⟨f₀, f₁, f₂, f₃, h₀, h₁, h₂, h₃, h₄⟩ := exists_passes h hf
  obtain ⟨hcovers, hsub, hnodup⟩ := covers_of_passes h₀ h₁ h₂ h₃ h₄
  obtain ⟨size, places, hframed⟩ := exists_framed h hf
  refine ⟨fun i hi reg hreg hsaved => ?_, hnodup, fun i hi => (hcovers i hi).caller, fun hne => ?_⟩
  · obtain ⟨operand, hoperand, hroot⟩ := mem_physicalRoots.mp hreg
    exact (hcovers i hi).operands operand hoperand reg hroot hsaved
  · refine ⟨size, places, hframed.saved.symm, hframed.saves hsub ?_⟩
    rintro rfl
    exact hne hframed.saved

/-- Seven doubled parameters that are needed at once, after a call: more than the registers that are
left to hold them without saving one. -/
def crowded : Ir.Module where
  name := "m"
  functions := [{
    name := "f"
    returnType := .i32
    parameters := (List.range 8).map fun n => ⟨s!"p{n}", .i32, false⟩
    blocks := [
      { name := "entry"
        instructions := [.call none "g" [] .void none]
          ++ ((List.range 7).map fun n =>
            .binary ⟨n⟩ .add (.param s!"p{n}" .i32) (.param s!"p{n}" .i32) .i32)
          ++ ((List.range 6).map fun n => .binary ⟨7 + n⟩ .add
            (.temp ⟨if n = 0 then 0 else 6 + n⟩ .i32) (.temp ⟨n + 1⟩ .i32) .i32)
          ++ [.ret (some (.temp ⟨12⟩ .i32))] }] }]

theorem crowded_kept : ∃ code f, machineCode { arch := .riscv32 } crowded = .ok code ∧
    f ∈ code.functions ∧ f.registersToSave riscv32 = [Riscv.ra, 8] ∧
    f.usedCalleeSaved.Nodup ∧ ∃ size places,
      places.map (·.1) = [Riscv.ra, 8] ∧ f.Saves .riscv32 size places := by
  have hrun : (machineCode { arch := .riscv32 } crowded).map
      (fun code => code.functions.map (·.registersToSave riscv32)) = .ok [[Riscv.ra, 8]] := by
    decide +kernel
  obtain ⟨code, hcode, hfunctions⟩ := map_eq_ok.mp hrun
  obtain ⟨f, hf, hsaved⟩ : ∃ f ∈ code.functions, f.registersToSave riscv32 = [Riscv.ra, 8] :=
    List.mem_map.mp (by simp [hfunctions])
  obtain ⟨-, hnodup, -, hsaves⟩ := callee_saved_kept hcode hf
  obtain ⟨size, places, hplaces, hkept⟩ := hsaves (hsaved ▸ List.cons_ne_nil _ _)
  exact ⟨code, f, hcode, hf, hsaved, hnodup, size, places, hplaces.trans hsaved, hkept⟩

end Options

end Retarget
