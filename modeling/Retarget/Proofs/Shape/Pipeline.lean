import Retarget.Pipeline
import Retarget.Proofs.Shape.Legalization
import Retarget.Proofs.Shape.Lowering
import Retarget.Proofs.Shape.NativeCode
import Retarget.Proofs.Shape.Passes

/-!
# Every module compiles to code that can be printed

Lowering leads to shaped code, the passes up to allocation keep it shaped, allocation and selection
make it final, and final code has a text.  So the machine code of a module is well formed and the
code generator never fails for a reason of its own (`machineCode_wellFormed`).
-/

namespace Retarget

open Machine (Function Instruction Operand Opcode)

variable {t : Target}

/-! ## Assembly -/

theorem exists_mapM {α β : Type} {g : α → Result β} {l : List α}
    (h : ∀ a ∈ l, ∃ b, g a = .ok b) : ∃ bs, l.mapM g = .ok bs := by
  induction l with
  | nil => exact ⟨[], rfl⟩
  | cons a l ih =>
    obtain ⟨b, hb⟩ := h a (by simp)
    obtain ⟨bs, hbs⟩ := ih fun a ha => h a (by simp [ha])
    exact ⟨b :: bs, by rw [List.mapM_cons, hb, ok_bind, hbs]; rfl⟩

namespace Assembly

theorem exists_emitFunction (ht : t.Printable) {f : Function} (h : f.All (·.Final t)) (index : Nat) :
    ∃ text, emitFunction t index f = .ok text := by
  have hblock : ∀ b ∈ f.blocks.zipIdx,
      ∃ text, emitBlock t index f b.1 (0 < b.2 || mentionsLabel f b.1.name) = .ok text := by
    intro b hb
    have hmem : b.1 ∈ f.blocks := List.fst_mem_of_mem_zipIdx hb
    obtain ⟨lines, hlines⟩ := exists_mapM fun i hi =>
      Target.exists_render ht (h i (Function.mem_instructions.mpr ⟨b.1, hmem, hi⟩)) index f
    rw [emitBlock, hlines]
    exact ⟨_, rfl⟩
  obtain ⟨blocks, hblocks⟩ := exists_mapM hblock
  rw [emitFunction, hblocks]
  exact ⟨_, rfl⟩

theorem exists_emit (ht : t.Printable) {m : Machine.Module}
    (h : ∀ f ∈ m.functions, f.All (·.Final t)) : ∃ text, emit t m = .ok text := by
  obtain ⟨functions, hfunctions⟩ := exists_mapM fun p (hp : p ∈ m.functions.zipIdx) =>
    exists_emitFunction ht (h p.1 (List.fst_mem_of_mem_zipIdx hp)) p.2
  rw [emit, hfunctions]
  exact ⟨_, rfl⟩

end Assembly

/-! ## Passes -/

/-- What holds of a target for its passes to lead to final code. -/
structure Target.Sound (t : Target) : Prop where
  regular : t.Regular
  expands : Function.Expands t
  selects : t.Selects
  fixUp : ∀ f : Function, f.All (·.Final t) → (t.fixUp f).All (·.Final t)
  printable : t.Printable

theorem Arch.sound : (a : Arch) → a.target.Sound
  | aarch64 => ⟨Arch.regular aarch64, Target.AArch64.expands, Target.AArch64.selects,
      fun _ h => Target.AArch64.final_fixUp h, Target.AArch64.printable⟩
  | riscv32 => ⟨Arch.regular riscv32, Target.Riscv.expands, Target.Riscv.selects,
      fun _ h => h, Target.Riscv.printable⟩

namespace Machine.Function

variable {a : Arch} {f g : Function}

theorem shaped_legalize (hf : f.All (·.Shaped a.target f.slots)) (h : f.legalize a.target = .ok g) :
    g.All (·.Shaped a.target g.slots) :=
  (yields_legalize a.sound.expands hf).of_eq_ok h

theorem allocated_allocateRegisters (hf : f.All (·.Shaped a.target f.slots))
    (h : f.allocateRegisters a.target = .ok g) : g.All (·.Allocated a.target) :=
  (yields_allocateRegisters a.regular hf).of_eq_ok h

theorem final_selectInstructions (hf : f.All (·.Allocated a.target))
    (h : f.selectInstructions a.target = .ok g) : g.All (·.Final a.target) :=
  (yields_selectInstructions a.sound.selects a.sound.fixUp hf).of_eq_ok h

end Machine.Function

theorem Pass.yields_run {P Q : Function → Prop} {s : Stage} {m : Machine.Module}
    (hs : ∀ f, P f → Yields Q (s.run t f)) (hm : ∀ f ∈ m.functions, P f) :
    Yields (fun m => ∀ f ∈ m.functions, Q f) (Pass.run t m (.stage s)) :=
  (Yields.mapM fun f hf => hs f (hm f hf)).bind fun _ h => .pure h

namespace Options

theorem yields_passes (ht : t.Sound) {m : Machine.Module}
    (hm : ∀ f ∈ m.functions, f.All (·.Shaped t f.slots)) :
    Yields (fun m => ∀ f ∈ m.functions, f.All (·.Final t))
      ([Pass.stage .legalization, .stage .classes, .stage .allocation, .stage .selection,
        .stage .frames].foldlM (Pass.run t) m) := by
  have hlegalize : ∀ f : Function, f.All (·.Shaped t f.slots) →
      Yields (fun g => g.All (·.Shaped t g.slots)) (Stage.run t f .legalization) :=
    fun f hf => Function.yields_legalize ht.expands hf
  have hclasses : ∀ f : Function, f.All (·.Shaped t f.slots) →
      Yields (fun g => g.All (·.Shaped t g.slots)) (Stage.run t f .classes) :=
    fun f hf => .ok hf.selectClasses
  have hallocate : ∀ f : Function, f.All (·.Shaped t f.slots) →
      Yields (fun g => g.All (·.Allocated t)) (Stage.run t f .allocation) :=
    fun f hf => Function.yields_allocateRegisters ht.regular hf
  have hselect : ∀ f : Function, f.All (·.Allocated t) →
      Yields (fun g => g.All (·.Final t)) (Stage.run t f .selection) :=
    fun f hf => Function.yields_selectInstructions ht.selects ht.fixUp hf
  have hframe : ∀ f : Function, f.All (·.Final t) →
      Yields (fun g => g.All (·.Final t)) (Stage.run t f .frames) :=
    fun f hf => Function.yields_insertFrameCode ht.selects hf
  refine (Pass.yields_run hlegalize hm).bind fun m hm => ?_
  refine (Pass.yields_run hclasses hm).bind fun m hm => ?_
  refine (Pass.yields_run hallocate hm).bind fun m hm => ?_
  refine (Pass.yields_run hselect hm).bind fun m hm => ?_
  exact (Pass.yields_run hframe hm).bind fun m hm => .pure hm

theorem yields_machineCode (o : Options) (m : Ir.Module) :
    Yields (fun code => ∀ f ∈ code.functions, f.All (·.Final o.target)) (o.machineCode m) := by
  have ht : o.target.Sound := o.arch.sound
  rw [machineCode]
  refine (Lowering.yields_lowerModule o.target m).bind fun lowered hlowered => ?_
  rw [passes, List.foldlM_append]
  refine Yields.bind (P := fun m : Machine.Module =>
    ∀ f ∈ m.functions, f.All (·.Shaped o.target f.slots)) ?_ fun m hm => yields_passes ht hm
  split
  · have hoptimized := Yields.mapM fun f hf => Function.All.yields_optimized (hlowered f hf)
    exact (hoptimized.bind fun _ h => .pure h).bind fun _ h => .pure h
  · exact .pure hlowered

/-- **Code is well formed and nothing fails inside**: the machine code of a module has only physical
registers, constants, labels, functions and globals as operands, only native opcodes that the target
has a template for, and as many operands as the template asks for, so it has a text; and no run ends
with an internal failure. -/
theorem machineCode_wellFormed (o : Options) (m : Ir.Module) :
    (∀ code, o.machineCode m = .ok code →
      (∀ f ∈ code.functions, ∀ i ∈ f.instructions,
        (∀ x ∈ i.operands,
          x.isPhysical ∨ x.isImmediate ∨ x.isLabel ∨ x.isFunction ∨ x.isGlobal) ∧
        i.opcode.number < Opcode.genericBase ∧
        ∃ template ∈ o.target.templates, template.opcode = i.opcode.number ∧
          o.target.template? i = some template ∧ i.operands.length = template.operandCount) ∧
      ∃ text, Assembly.emit o.target code = .ok text) ∧
    ∀ detail, o.compile m ≠ .error (.internal detail) := by
  have hcode := yields_machineCode o m
  have hprintable : o.target.Printable := o.arch.sound.printable
  refine ⟨fun code hok => ⟨fun f hf i hi => ?_, ?_⟩, ?_⟩
  · obtain ⟨⟨hselected, template, htemplate, hcount⟩, hfinal⟩ := hcode.of_eq_ok hok f hf i hi
    obtain ⟨hget, hnumber⟩ := Option.filter_eq_some_iff.mp htemplate
    refine ⟨fun x hx => ?_, ?_, template, List.mem_of_getElem? hget, ?_, htemplate, hcount⟩
    · simpa [Operand.isFinal, or_assoc] using hfinal x hx
    · cases hopcode : i.opcode with
      | native n =>
        simpa [Instruction.isSelected, hopcode, Opcode.isSelected, Opcode.number] using hselected
      | generic op => simp [Instruction.isSelected, hopcode, Opcode.isSelected] at hselected
    · simpa using hnumber
  · exact Assembly.exists_emit hprintable (hcode.of_eq_ok hok)
  · have hcompile : Yields (fun _ => True) (o.compile m) := by
      refine hcode.bind fun code h => ?_
      obtain ⟨text, htext⟩ := Assembly.exists_emit hprintable h
      rw [htext]
      exact .ok trivial
    exact hcompile.ne_internal

/-- `rest(a) = a % 7`, through a local. -/
def remainder : Ir.Module where
  name := "remainder"
  functions := [{
    name := "rest"
    returnType := .i32
    parameters := [⟨"a", .i32, false⟩]
    blocks := [{
      name := "entry"
      instructions :=
        [.stackAlloc 0 "x" .i32, .store (.param "a" .i32) (.temp 0 (.ptr .i32)),
          .load 1 (.temp 0 (.ptr .i32)) .i32, .binary 2 .mod (.temp 1 .i32) (.int 7) .i32,
          .ret (some (.temp 2 .i32))] }] }]

theorem remainder_wellFormed : ∃ code, Options.machineCode { optimize := true } remainder = .ok code ∧
    (∃ text, Assembly.emit Arch.aarch64.target code = .ok text) ∧
    ∀ detail, Options.compile { optimize := true } remainder ≠ .error (.internal detail) := by
  have hok : (Options.machineCode { optimize := true } remainder).isOk := by decide +kernel
  obtain ⟨hcode, hcompile⟩ := machineCode_wellFormed { optimize := true } remainder
  cases h : Options.machineCode { optimize := true } remainder with
  | error e => simp [h, Except.isOk, Except.toBool] at hok
  | ok code => exact ⟨code, rfl, (hcode code h).2, hcompile⟩

end Options

end Retarget
