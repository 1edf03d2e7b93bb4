import Retarget.Proofs.Shape.Pipeline
import Retarget.Proofs.Stack.FrameCode

/-!
# Balance of the stack

The code of a frame is in the first block itself, so a path that comes back to that block reserves
the frame once more.  At a return the stack pointer is therefore as many frames below its value at
the entry as the path has come back to the first block, and saved registers come from the frame that
was reserved last.  The stack is balanced for the paths that enter the first block once, and for no
others unless the frame has no bytes (`Options.balanced_iff`).
-/

namespace Retarget

open Machine Target

/-! ## Runs of frame code -/

namespace Machine.StackView

variable {a : Arch} {v : StackView} {size : Nat} {places : List (RegId × Int)} {reg : RegId}

theorem foldl_access {effect : RegId → Int → StackEffect} {isStore : Bool}
    (heffect : ∀ (v : StackView) reg offset, v.apply (effect reg offset) =
      { v with accesses := v.accesses ++ [⟨isStore, reg, v.pointer.map (· + offset)⟩] })
    (places : List (RegId × Int)) (v : StackView) :
    (places.map fun p => effect p.1 p.2).foldl apply v =
      { v with accesses := v.accesses ++
          places.map fun p => ⟨isStore, p.1, v.pointer.map (· + p.2)⟩ } := by
  induction places generalizing v with
  | nil => simp
  | cons p places ih =>
    rw [List.map_cons, List.foldl_cons, heffect, ih]
    simp

theorem enter_eq {p : Int} (h : v.pointer = some p) : v.enter size places =
    ⟨some (p - size), v.accesses ++ places.map fun q => ⟨true, q.1, some (p - size + q.2)⟩⟩ := by
  rw [enter, enterEffects, List.foldl_cons, foldl_access fun _ _ _ => rfl]
  simp [apply, h, Int.sub_eq_add_neg]

theorem leave_eq {p : Int} (h : v.pointer = some p) : v.leave size places =
    ⟨some (p + size),
      v.accesses ++ places.reverse.map fun q => ⟨false, q.1, some (p + q.2)⟩⟩ := by
  rw [leave, leaveEffects, List.foldl_append, foldl_access fun _ _ _ => rfl]
  simp [apply, h]

/-- A register that is stored at several places is looked for at the first of them. -/
def firstPlace? (places : List (RegId × Int)) (reg : RegId) : Option Int :=
  (places.find? (·.1 == reg)).map (·.2)

theorem exists_firstPlace? (h : reg ∈ places.map (·.1)) :
    ∃ place, firstPlace? places reg = some place := by
  obtain ⟨p, hp, rfl⟩ := List.mem_map.mp h
  rw [firstPlace?, ← Option.isSome_iff_exists, Option.isSome_map, List.find?_isSome]
  exact ⟨p, hp, by simp⟩

theorem savedAt?_enter {p place : Int} (hpointer : v.pointer = some p) (haccesses : v.accesses = [])
    (hplace : firstPlace? places reg = some place) :
    (v.enter size places).savedAt? reg = some (some (p - size + place)) := by
  obtain ⟨q, hq, rfl⟩ := Option.map_eq_some_iff.mp hplace
  rw [enter_eq hpointer, haccesses, savedAt?, List.nil_append, List.find?_map]
  show Option.map _ (Option.map _ (places.find? (·.1 == reg))) = _
  rw [hq]
  rfl

theorem savedAt?_leave {p : Int} {place : Option Int} (hpointer : v.pointer = some p)
    (h : v.savedAt? reg = some place) : (v.leave size places).savedAt? reg = some place := by
  rw [savedAt?, Option.map_eq_some_iff] at h ⊢
  obtain ⟨x, hx, hplace⟩ := h
  exact ⟨x, by rw [leave_eq hpointer, List.find?_append, hx]; rfl, hplace⟩

/-- Loads are in the opposite order, so the last load of a register is from its first place. -/
theorem reloadedFrom?_leave {p place : Int} (hpointer : v.pointer = some p)
    (hplace : firstPlace? places reg = some place) :
    (v.leave size places).reloadedFrom? reg = some (some (p + place)) := by
  obtain ⟨q, hq, rfl⟩ := Option.map_eq_some_iff.mp hplace
  rw [leave_eq hpointer, reloadedFrom?, List.reverse_append, ← List.map_reverse,
    List.reverse_reverse, List.find?_append, List.find?_map]
  show Option.map _ (Option.or (Option.map _ (places.find? (·.1 == reg))) _) = _
  rw [hq]
  rfl

end Machine.StackView

namespace Machine.Function

open StackView

variable {a : Arch} {f : Function} {size : Nat} {places : List (RegId × Int)}

theorem pointer_apply_steady {i : Instruction} (h : i.Steady a) (v : StackView) :
    (v.apply (a.stackEffect i)).pointer = v.pointer := by
  rw [Arch.stackEffect]
  have hhead := h.head
  cases hoperands : i.operands with
  | nil => rfl
  | cons dest rest =>
    rw [hoperands] at hhead
    have hne : dest.kind ≠ .physicalReg a.target.registers.stack := hhead dest rfl
    simp only [List.map_cons, if_neg hne]
    split
    all_goals try split
    all_goals rfl

/-- Inside a block, `n` frames are reserved, and the registers were saved in the first of them. -/
structure Inside (size : Nat) (places : List (RegId × Int)) (n : Nat) (v : StackView) : Prop where
  pointer : v.pointer = some (-((n : Int) * size))
  saved : ∀ reg place, firstPlace? places reg = some place →
    v.savedAt? reg = some (some (-(size : Int) + place))

/-- At the start of the first block, one frame less is reserved than inside of it; nothing is saved
when it is entered for the first time. -/
structure AtStart (size : Nat) (places : List (RegId × Int)) (b n : Nat) (v : StackView) :
    Prop where
  pointer : v.pointer = some (-((if b = 0 then (n : Int) - 1 else n) * size))
  saved : b = 0 ∧ n = 1 ∧ v.accesses = [] ∨ ∀ reg place, firstPlace? places reg = some place →
    v.savedAt? reg = some (some (-size + place))

theorem Inside.run {n : Nat} {v : StackView} (h : Inside size places n v) {is : List Instruction}
    (his : ∀ i ∈ is, i.Steady a) : Inside size places n (v.run a is) := by
  refine ⟨?_, fun reg place hplace => savedAt?_run (h.saved reg place hplace) is⟩
  rw [← h.pointer]
  clear h
  induction is generalizing v with
  | nil => rfl
  | cons i is ih =>
    obtain ⟨hi, his⟩ := List.forall_mem_cons.mp his
    exact (ih his).trans (pointer_apply_steady hi v)

theorem Inside.atStart {n : Nat} {v : StackView} (h : Inside size places n v) (c : Nat) :
    AtStart size places c (if c = 0 then n + 1 else n) v := by
  refine ⟨?_, .inr h.saved⟩
  rw [h.pointer]
  split <;> simp

theorem AtStart.inside {b n : Nat} {v : StackView} (h : AtStart size places b n v)
    {pre body tail : List Instruction} (hframed : IsFramed a size places (b == 0) pre body tail) :
    Inside size places n (v.run a pre) := by
  obtain ⟨hpointer, hsaved⟩ := h
  constructor
  · rw [hframed.enters]
    by_cases hb : b = 0
    · subst hb
      rw [if_pos (beq_self_eq_true 0), enter_eq hpointer, if_pos rfl, Int.sub_mul]
      refine congrArg some ?_
      omega
    · simpa [hb] using hpointer
  · intro reg place hplace
    rcases hsaved with ⟨rfl, rfl, haccesses⟩ | hsaved
    · rw [hframed.enters, if_pos (beq_self_eq_true 0), savedAt?_enter hpointer haccesses hplace]
      simp
    · exact savedAt?_run (hsaved reg place hplace) pre

/-! ## Blocks -/

theorem isPrefix_append_cases {xs ys zs : List Instruction} (h : zs <+: xs ++ ys) :
    zs <+: xs ∨ ∃ more, more <+: ys ∧ zs = xs ++ more := by
  rcases List.prefix_or_prefix_of_prefix h (List.prefix_append xs ys) with hle | ⟨more, rfl⟩
  · exact .inl hle
  · exact .inr ⟨more, (List.prefix_append_right_inj xs).mp h, rfl⟩

/-- Straight code is no way out of a block that goes on behind it. -/
theorem LeavesBlock.eq_of_straight {code xs ys : List Instruction}
    (h : LeavesBlock a code (xs ++ ys)) (hys : ∀ i ∈ ys, Straight a i) (hne : ys ≠ []) :
    xs ++ ys = code := by
  refine h.ends.resolve_right ?_
  rintro ⟨i, hlast, htransfers⟩
  rw [List.getLast?_append_of_ne_nil _ hne] at hlast
  have hstraight := (hys i (List.mem_of_getLast? hlast)).1
  rw [htransfers] at hstraight
  cases hstraight

theorem LeavesBlock.exists_part {pre body tail is : List Instruction} {isFirst : Bool}
    (hframed : IsFramed a size places isFirst pre body tail)
    (h : LeavesBlock a (pre ++ (body ++ tail)) is) : ∃ part, part <+: body ∧ is = pre ++ part := by
  rcases isPrefix_append_cases h.isPrefix with hpre | ⟨part, hpart, rfl⟩
  · -- Nothing leaves the code at the entry, so the block has no more than that.
    refine ⟨[], List.nil_prefix, ?_⟩
    rw [List.append_nil]
    by_cases hne : is = []
    · subst hne
      rcases h.ends with hall | ⟨i, hlast, -⟩
      · exact (List.append_eq_nil_iff.mp hall.symm).1.symm
      · cases hlast
    · have hall : [] ++ is = pre ++ (body ++ tail) :=
        LeavesBlock.eq_of_straight h (fun i hi => hframed.straight i (hpre.subset hi)) hne
      rw [List.nil_append] at hall
      exact hpre.eq_of_length_le (by simp [hall])
  · rcases isPrefix_append_cases hpart with hbody | ⟨more, hmore, rfl⟩
    · exact ⟨part, hbody, rfl⟩
    · suffices hmore : more = [] by
        subst hmore
        exact ⟨body, List.prefix_refl body, by simp⟩
      rcases hframed.leaves with rfl | ⟨exit, ret, rest, rfl, -, hexit, hret, -⟩
      · exact List.prefix_nil.mp hmore
      · have hnot : ret ∉ more := fun hmem => h.no_ret ret (by simp [hmem]) hret
        have hle : more <+: exit := by
          rcases isPrefix_append_cases hmore with hle | ⟨last, hlast, rfl⟩
          · exact hle
          · rcases List.prefix_cons_iff.mp hlast with rfl | ⟨_, rfl, -⟩
            · simp
            · simp at hnot
        -- Nothing leaves the code before a return, and all of the block has the return in it.
        by_contra hne
        rw [← List.append_assoc pre body more] at h
        have hall := h.eq_of_straight (fun i hi => hexit i (hle.subset hi)) hne
        rw [List.append_assoc, List.append_right_inj, List.append_right_inj] at hall
        exact hnot (by simp [hall])

/-- Code up to a first return is all that stands before any first return. -/
theorem take_eq_of_ret {xs ys : List Instruction} {i j : Instruction} {k : Nat}
    (hxs : ∀ x ∈ xs, a.role x ≠ .ret) (hj : a.role j = .ret)
    (hk : (xs ++ j :: ys)[k]? = some i) (hi : a.role i = .ret)
    (htake : ∀ x ∈ (xs ++ j :: ys).take k, a.role x ≠ .ret) : (xs ++ j :: ys).take k = xs := by
  have hle : xs.length ≤ k := by
    by_contra hlt
    rw [List.getElem?_append_left (by omega)] at hk
    exact hxs i (List.mem_of_getElem? hk) hi
  have hge : k ≤ xs.length := by
    by_contra hlt
    refine htake j (List.mem_take_iff_getElem.mpr ⟨xs.length, ?_, by simp⟩) hj
    simp only [List.length_append, List.length_cons]
    omega
  rw [Nat.le_antisymm hge hle, List.take_left]

/-! ## Functions -/

namespace Framed

variable {b k n : Nat} {v : StackView} (h : Framed a size places f) (path : f.Path a b k n v)
include h path

/-- What a path has passed since it entered the block that it is in. -/
theorem exists_atStart : ∃ w, AtStart size places b n w ∧
    v = w.run a ((f.rest b 0).take k) ∧ ∀ i ∈ (f.rest b 0).take k, a.role i ≠ .ret := by
  refine path.induct ⟨by simp, .inl ⟨rfl, rfl, rfl⟩⟩ fun b block n v is hblock hv hleaves c => ?_
  obtain ⟨pre, body, tail, hcode, hframed⟩ := h.blocks b block hblock
  rw [hcode] at hleaves
  obtain ⟨part, hpart, rfl⟩ := hleaves.exists_part hframed
  rw [run_append]
  exact ((hv.inside hframed).run fun i hi => (hframed.steady i (hpart.subset hi)).1).atStart c

theorem exists_leave {i : Instruction} (hi : f.instruction? b k = some i)
    (hret : a.role i = .ret) : ∃ w, Inside size places n w ∧ v = w.leave size places := by
  obtain ⟨w, hw, rfl, hbefore⟩ := h.exists_atStart path
  obtain ⟨block, hblock, -⟩ := Option.bind_eq_some_iff.mp hi
  obtain ⟨pre, body, tail, hcode, hframed⟩ := h.blocks b block hblock
  rw [← rest_zero_getElem?] at hi
  rw [rest_zero_eq hblock, hcode] at hi hbefore ⊢
  have hin := (hw.inside hframed).run fun i hi => (hframed.steady i hi).1
  rcases hframed.leaves with rfl | ⟨exit, ret, rest, rfl, hleave, hexit, hret', -⟩
  · -- Without a return in its tail the block has none.
    exfalso
    rw [List.append_nil] at hi
    rcases List.mem_append.mp (List.mem_of_getElem? hi) with hmem | hmem
    · exact (hframed.straight i hmem).2 hret
    · exact (hframed.steady i hmem).2 hret
  · rw [← List.append_assoc, ← List.append_assoc] at hi hbefore ⊢
    have hstraight : ∀ x ∈ pre ++ body ++ exit, a.role x ≠ .ret := by
      simp only [List.mem_append]
      rintro x ((hx | hx) | hx)
      · exact (hframed.straight x hx).2
      · exact (hframed.steady x hx).2
      · exact (hexit x hx).2
    rw [take_eq_of_ret hstraight hret' hi hret hbefore, run_append, run_append, hleave]
    exact ⟨_, hin, rfl⟩

theorem isBalanced_iff {i : Instruction} (hi : f.instruction? b k = some i)
    (hret : a.role i = .ret) :
    f.IsBalanced a.target v ↔ n = 1 ∨ f.frame.size = .ok 0 := by
  obtain ⟨w, hw, rfl⟩ := h.exists_leave path hi hret
  have hpointer : (w.leave size places).pointer = some (-(((n : Int) - 1) * size)) := by
    rw [leave_eq hw.pointer, Int.sub_mul]
    refine congrArg some ?_
    omega
  have hzero : (w.leave size places).pointer = some 0 ↔ n = 1 ∨ size = 0 := by
    rw [hpointer, Option.some.injEq, Int.neg_eq_zero, Int.mul_eq_zero]
    omega
  rw [IsBalanced, h.size_eq_zero, hzero, and_iff_left_iff_imp, h.saved]
  rintro (rfl | rfl) reg hreg
  · obtain ⟨place, hplace⟩ := exists_firstPlace? hreg
    refine ⟨-(size : Int) + place, savedAt?_leave hw.pointer (hw.saved reg place hplace), ?_⟩
    rw [reloadedFrom?_leave hw.pointer hplace]
    simp
  · rw [h.places_eq_nil rfl] at hreg
    cases hreg

end Framed

section

variable {f₀ f₁ f₂ f₃ : Function} (h₀ : a.target.Produces f₀) (h₁ : f₀.legalize a.target = .ok f₁)
  (h₂ : (f₁.selectClasses a.target).allocateRegisters a.target = .ok f₂)
include h₀ h₁ h₂

theorem kept_of_produces :
    f₂.Kept a ∧ ∀ reg ∈ f₂.registersToSave a.target, reg ≠ a.target.registers.stack := by
  have hshaped := shaped_legalize h₀.shaped h₁
  have hallocated := allocated_allocateRegisters hshaped.selectClasses h₂
  obtain ⟨hsteady, hsave⟩ := ((untouched_of_produces h₀).legalize h₁).selectClasses.allocateRegisters
    hshaped.selectClasses h₂
  exact ⟨fun i hi => ⟨hsteady i hi, hallocated i hi⟩, hsave⟩

theorem framed_of_produces (h₃ : f₂.selectInstructions a.target = .ok f₃)
    (h : f₃.insertFrameCode a.target = .ok f) : ∃ size places, Framed a size places f := by
  obtain ⟨hkept, hsave⟩ := kept_of_produces h₀ h₁ h₂
  have hfinal := final_selectInstructions (fun i hi => (hkept i hi).2) h₃
  obtain ⟨hselected, hsame⟩ := hkept.selectInstructions h₃
  exact framed_insertFrameCode (fun i hi => ⟨hselected i hi, (hfinal i hi).fits.1⟩)
    (hsame ▸ hsave) h

end

end Machine.Function

/-! ## Modules -/

theorem Pass.exists_of_mem_run {t : Target} {s : Stage} {m m' : Machine.Module} {g : Function}
    (h : Pass.run t m (.stage s) = .ok m') (hg : g ∈ m'.functions) :
    ∃ f ∈ m.functions, s.run t f = .ok g := by
  obtain ⟨functions, hfunctions, h⟩ := bind_eq_ok.mp h
  cases h
  exact exists_of_mem_mapM_eq_ok hfunctions hg

namespace Options

variable {o : Options} {m : Ir.Module} {code : Machine.Module} {f : Function}

theorem exists_passes_from (h : o.machineCode m = .ok code) (hf : f ∈ code.functions) :
    ∃ f₀ f₁ f₂ f₃, o.target.ProducesFrom m f₀ ∧ f₀.legalize o.target = .ok f₁ ∧
      (f₁.selectClasses o.target).allocateRegisters o.target = .ok f₂ ∧
      f₂.selectInstructions o.target = .ok f₃ ∧ f₃.insertFrameCode o.target = .ok f := by
  obtain ⟨lowered, hlowered, h⟩ := bind_eq_ok.mp h
  rw [passes, List.foldlM_append] at h
  obtain ⟨m₀, hoptimize, h⟩ := bind_eq_ok.mp h
  have hproduced : ∀ f ∈ m₀.functions, o.target.ProducesFrom m f := by
    intro f hf
    split at hoptimize
    · obtain ⟨m₁, hrun, hoptimize⟩ := bind_eq_ok.mp hoptimize
      cases hoptimize
      obtain ⟨functions, hfunctions, hrun⟩ := bind_eq_ok.mp hrun
      cases hrun
      obtain ⟨g, hg, hoptimized⟩ := exists_of_mem_mapM_eq_ok hfunctions hf
      exact ⟨lowered, hlowered, g, hg, .inr (Function.optimized_eq_ok.mp hoptimized).2⟩
    · cases hoptimize
      exact ⟨lowered, hlowered, f, hf, .inl rfl⟩
  obtain ⟨m₁, h₁, h⟩ := bind_eq_ok.mp h
  obtain ⟨m₂, h₂, h⟩ := bind_eq_ok.mp h
  obtain ⟨m₃, h₃, h⟩ := bind_eq_ok.mp h
  obtain ⟨m₄, h₄, h⟩ := bind_eq_ok.mp h
  obtain ⟨m₅, h₅, h⟩ := bind_eq_ok.mp h
  cases h
  obtain ⟨f₄, hf₄, hframes⟩ := Pass.exists_of_mem_run h₅ hf
  obtain ⟨f₃, hf₃, hselect⟩ := Pass.exists_of_mem_run h₄ hf₄
  obtain ⟨f₂, hf₂, hallocate⟩ := Pass.exists_of_mem_run h₃ hf₃
  obtain ⟨f₁, hf₁, hclasses⟩ := Pass.exists_of_mem_run h₂ hf₂
  obtain ⟨f₀, hf₀, hlegalize⟩ := Pass.exists_of_mem_run h₁ hf₁
  cases hclasses
  exact ⟨f₀, f₁, f₃, f₄, hproduced f₀ hf₀, hlegalize, hallocate, hselect, hframes⟩

theorem exists_passes (h : o.machineCode m = .ok code) (hf : f ∈ code.functions) :
    ∃ f₀ f₁ f₂ f₃, o.target.Produces f₀ ∧ f₀.legalize o.target = .ok f₁ ∧
      (f₁.selectClasses o.target).allocateRegisters o.target = .ok f₂ ∧
      f₂.selectInstructions o.target = .ok f₃ ∧ f₃.insertFrameCode o.target = .ok f := by
  obtain ⟨f₀, f₁, f₂, f₃, h₀, hrest⟩ := exists_passes_from h hf
  exact ⟨f₀, f₁, f₂, f₃, h₀.produces, hrest⟩

theorem exists_framed (h : o.machineCode m = .ok code) (hf : f ∈ code.functions) :
    ∃ size places, Function.Framed o.arch size places f := by
  obtain ⟨f₀, f₁, f₂, f₃, hproduces, hlegalize, hallocate, hselect, hframes⟩ := exists_passes h hf
  exact Function.framed_of_produces hproduces hlegalize hallocate hselect hframes

/-- **The stack is balanced at returns** of the code of a module, and saved registers are loaded
from where they were stored at the entry, exactly along the paths that enter the first block only
once, unless the frame has no bytes. -/
theorem balanced_iff (h : o.machineCode m = .ok code) (hf : f ∈ code.functions) {b k n : Nat}
    {v : StackView} (path : f.Path o.arch b k n v) {i : Instruction}
    (hi : f.instruction? b k = some i) (hret : o.arch.role i = .ret) :
    f.IsBalanced o.target v ↔ n = 1 ∨ f.frame.size = .ok 0 := by
  obtain ⟨size, places, hframed⟩ := exists_framed h hf
  exact hframed.isBalanced_iff path hi hret

/-- A call that is made again as long as `p` holds. -/
def retrying : Ir.Module where
  name := "m"
  functions := [{
    name := "f"
    returnType := .void
    parameters := [⟨"p", .i32, false⟩]
    blocks := [
      { name := "entry"
        instructions := [.call none "g" [] .void none,
          .branch (.param "p" .i32) "entry" (some "exit")] },
      { name := "exit", instructions := [.ret none] }] }]

/-- Its code, with the link register in a frame of 16 bytes. -/
def retryingCode : Function where
  name := "f"
  params := [⟨0, .integer 32, false, false⟩]
  frame := ⟨[⟨⟨Function.saveSlotBase⟩, 8⟩]⟩
  isCaller := true
  nextId := 1
  blocks :=
    let sp := Operand.physicalReg AArch64.sp (.pointer 64)
    let saved := [.physicalReg (AArch64.x 30) (.integer 64), sp, .immediate 0 (.integer 64)]
    let condition : Operand := ⟨.physicalReg (AArch64.w 0), .integer 32, some AArch64.gpr32⟩
    [⟨"entry", [
      (Function.adjustStack aarch64 .sub 16).setOpcode AArch64.Op.subI.opcode,
      (Instruction.generic .store saved).setOpcode AArch64.Op.str.opcode,
      (Instruction.generic .call [.function "g"]).setOpcode AArch64.Op.bl.opcode,
      (Instruction.generic .branch [condition, .label "entry"]).setOpcode AArch64.Op.cbnz.opcode]⟩,
    ⟨"exit", [
      (Instruction.generic .load saved).setOpcode AArch64.Op.ldr.opcode,
      (Function.adjustStack aarch64 .add 16).setOpcode AArch64.Op.addI.opcode,
      (Instruction.generic .ret []).setOpcode AArch64.Op.ret.opcode]⟩]

theorem machineCode_retrying :
    ∃ code, machineCode {} retrying = .ok code ∧ retryingCode ∈ code.functions := by
  have hrun : (machineCode {} retrying).map (·.functions) = .ok [retryingCode] := by
    decide +kernel
  obtain ⟨code, hcode, hfunctions⟩ := map_eq_ok.mp hrun
  exact ⟨code, hcode, by simp [hfunctions]⟩

theorem retrying_path_return {n : Nat} {v : StackView} (path : retryingCode.Path .aarch64 0 0 n v) :
    ∃ w, retryingCode.Path .aarch64 1 2 n w :=
  have branched := (((path.next rfl rfl).next rfl rfl).next rfl rfl).next rfl rfl
  ⟨_, ((branched.leave (by decide)).next rfl rfl).next rfl rfl⟩

theorem retrying_path_again {n : Nat} {v : StackView} (path : retryingCode.Path .aarch64 0 0 n v) :
    ∃ w, retryingCode.Path .aarch64 0 0 (n + 1) w :=
  have called := ((path.next rfl rfl).next rfl rfl).next rfl rfl
  have label : Operand.label "entry" ∈ [⟨.physicalReg (AArch64.w 0), .integer 32, some ⟨1⟩⟩,
      Operand.label "entry"] := by simp
  ⟨_, called.transfer rfl rfl label rfl (c := 0) rfl⟩

theorem retrying_balanced : ∃ code, machineCode {} retrying = .ok code ∧
    retryingCode ∈ code.functions ∧ ∃ v i, retryingCode.Path .aarch64 1 2 1 v ∧
      retryingCode.instruction? 1 2 = some i ∧ Arch.aarch64.role i = .ret ∧
      retryingCode.IsBalanced aarch64 v := by
  obtain ⟨code, hcode, hmem⟩ := machineCode_retrying
  obtain ⟨v, path⟩ := retrying_path_return .entry
  exact ⟨code, hcode, hmem, v, _, path, rfl, rfl,
    (balanced_iff hcode hmem path rfl rfl).mpr (.inl rfl)⟩

/-- **A branch back to the first block unbalances the stack**: the frame is reserved twice and
released once. -/
theorem retrying_unbalanced : ∃ code, machineCode {} retrying = .ok code ∧
    retryingCode ∈ code.functions ∧ ∃ v i, retryingCode.Path .aarch64 1 2 2 v ∧
      retryingCode.instruction? 1 2 = some i ∧ Arch.aarch64.role i = .ret ∧
      ¬ retryingCode.IsBalanced aarch64 v := by
  obtain ⟨code, hcode, hmem⟩ := machineCode_retrying
  obtain ⟨w, hagain⟩ := retrying_path_again .entry
  obtain ⟨v, path⟩ := retrying_path_return hagain
  obtain ⟨size, places, hframed⟩ := exists_framed hcode hmem
  refine ⟨code, hcode, hmem, v, _, path, rfl, rfl, fun hbalanced => ?_⟩
  rcases (hframed.isBalanced_iff path rfl rfl).mp hbalanced with hone | hsize
  · cases hone
  · exact absurd hsize (by decide)

end Options

end Retarget
