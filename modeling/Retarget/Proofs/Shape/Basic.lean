import Retarget.Proofs.Checked
import Retarget.Target.Basic

/-!
# Shapes of instructions

Up to allocation an instruction has the operands that its operation asks for, of which certain ones
are places in memory (`Shaped`).  Allocation turns a place into a base and an offset
(`Allocated`), and selection makes every instruction fit its template (`Final`).
-/

namespace Retarget.Machine

section

variable {Q : Operand → Prop} {os : List Operand}

theorem forall_mem_eraseIdx (h : ∀ o ∈ os, Q o) (k : Nat) : ∀ o ∈ os.eraseIdx k, Q o :=
  fun o ho => h o (List.mem_of_mem_eraseIdx ho)

theorem forall_mem_set (h : ∀ o ∈ os, Q o) (k : Nat) {new : Operand} (hnew : Q new) :
    ∀ o ∈ os.set k new, Q o := by
  intro o ho
  rcases List.mem_or_eq_of_mem_set ho with ho | rfl
  · exact h o ho
  · exact hnew

theorem forall_mem_modify (h : ∀ o ∈ os, Q o) (k : Nat) {change : Operand → Operand}
    (hchange : ∀ o, os[k]? = some o → Q (change o)) : ∀ o ∈ os.modify k change, Q o := by
  intro o ho
  obtain ⟨n, hn⟩ := List.mem_iff_getElem?.mp ho
  rw [List.getElem?_modify] at hn
  obtain ⟨old, hold, rfl⟩ := Option.map_eq_some_iff.mp hn
  split
  · next hk => exact hchange old (hk ▸ hold)
  · exact h old (List.mem_of_getElem? hold)

end

namespace Operand

def isPlace (o : Operand) : Bool := o.isMemory || o.isStack

/-- Whether the operand can be printed: a physical register, a constant, a label, a function or a
global. -/
def isFinal (o : Operand) : Bool :=
  o.isPhysical || o.isImmediate || o.isLabel || o.isFunction || o.isGlobal

/-- A place in memory, in the frame only if the slot is there. -/
def IsPlaceIn (o : Operand) (slots : List Slot) : Prop :=
  o.isPlace ∧ ∀ s, o.slot? = some s → s ∈ slots

/-- What the shape of an instruction depends on. -/
def traits (o : Operand) : Bool × Option Slot × Bool := (o.isPlace, o.slot?, o.isGlobal)

theorem traits_congr {o o' : Operand} (h : o.kind = o'.kind) : o.traits = o'.traits := by
  simp [traits, isPlace, isMemory, isStack, slot?, isGlobal, h]

theorem slot?_eq_none {o : Operand} (h : o.isPlace = false) : o.slot? = none := by
  rw [isPlace, Bool.or_eq_false_iff] at h
  have hstack := h.2
  rw [isStack] at hstack
  rw [slot?]
  split
  · next heq => simp [heq] at hstack
  · rfl

@[simp] theorem isPlace_virtualReg (r : RegId) (ty : LowType) : (virtualReg r ty).isPlace = false :=
  rfl

@[simp] theorem isPlace_physicalReg (r : RegId) (ty : LowType) :
    (physicalReg r ty).isPlace = false :=
  rfl

@[simp] theorem isPlace_parameter (r : RegId) (ty : LowType) : (parameter r ty).isPlace = false :=
  rfl

@[simp] theorem isPlace_immediate (v : Int) (ty : LowType) : (immediate v ty).isPlace = false :=
  rfl

@[simp] theorem isPlace_label (name : String) : (label name).isPlace = false := rfl

@[simp] theorem isPlace_function (name : String) : (function name).isPlace = false := rfl

@[simp] theorem isPlace_global (name : String) (ty : LowType) :
    (global name ty).isPlace = false :=
  rfl

theorem isPlaceIn_memory (slots : List Slot) (base : RegId) (offset : Int) (ty : LowType) :
    (memory base offset ty).IsPlaceIn slots :=
  ⟨rfl, fun s hs => by cases hs⟩

theorem isPlaceIn_stack {slots : List Slot} {slot : Slot} (h : slot ∈ slots) (offset : Int)
    (ty : LowType) : (stack slot offset ty).IsPlaceIn slots := by
  refine ⟨rfl, fun s hs => ?_⟩
  cases hs
  exact h

theorem IsPlaceIn.mono {o : Operand} {slots slots' : List Slot} (h : o.IsPlaceIn slots)
    (hsub : slots ⊆ slots') : o.IsPlaceIn slots' :=
  ⟨h.1, fun s hs => hsub (h.2 s hs)⟩

theorem isImmediate_iff {o : Operand} : o.isImmediate ↔ ∃ v, o.immediate? = some v := by
  obtain ⟨kind, ty, regClass⟩ := o
  cases kind <;> simp [isImmediate, immediate?]

theorem isPlace_of_isFinal {o : Operand} (h : o.isFinal) : o.isPlace = false := by
  obtain ⟨kind, ty, regClass⟩ := o
  cases kind with
  | memory base offset | stack slot offset => cases h
  | _ => rfl

theorem traits_of_isImmediate {o : Operand} (h : o.isImmediate) :
    o.traits = (false, none, false) := by
  obtain ⟨kind, ty, regClass⟩ := o
  cases kind with
  | immediate v => rfl
  | _ => cases h

theorem isPlace_of_isImmediate {o : Operand} (h : o.isImmediate) : o.isPlace = false :=
  congrArg Prod.fst (traits_of_isImmediate h)

end Operand

/-- Which operands of an operation are places in memory, in each of its forms before allocation. -/
def GenericOp.layouts : GenericOp → List (List Bool)
  | store => [[true, false]]
  | load | stackAddress => [[false, true]]
  | zextLoad => [[false, false, true]]
  | jump | call => [[false]]
  | branch => [[false, false], [false, false, false]]
  | ret => [[], [false]]
  | and | or | xor | lsl | lsr | add | sub | mul | div | divu | mod | modu | cmp
  | addf | subf | mulf | divf | cmpf => [[false, false, false]]
  | sext | zext | trunc | ftoi | itof | loadImm | globalAddress | mov | movf => [[false, false]]

/-- The numbers of operands of an operation once each place is a base and an offset. -/
def GenericOp.widths (op : GenericOp) : List Nat :=
  op.layouts.map fun layout => layout.length + layout.count true

namespace Instruction

def layout (i : Instruction) : List Bool := i.operands.map (·.isPlace)

/-- The instruction is native and has the operands that its template asks for. -/
def Fits (t : Target) (i : Instruction) : Prop :=
  i.isSelected ∧ ∃ template, t.template? i = some template ∧
    i.operands.length = template.operandCount

/-- The instruction has the form that its operation has before allocation, over a frame with the
given slots. -/
structure Shaped (t : Target) (slots : List Slot) (i : Instruction) : Prop where
  form : match i.opcode with
    | .generic op => i.layout ∈ op.layouts
    | .native _ => i.Fits t ∧ true ∉ i.layout
  inFrame : ∀ o ∈ i.operands, ∀ s, o.slot? = some s → s ∈ slots
  symbol : i.isGeneric .globalAddress → (i.operand? 1).any (·.isGlobal)
  related : i.isGeneric .cmp → i.relation.isSome

/-- The instruction has the form that its operation has after allocation. -/
structure Allocated (t : Target) (i : Instruction) : Prop where
  form : match i.opcode with
    | .generic op => i.operands.length ∈ op.widths
    | .native _ => i.Fits t
  final : ∀ o ∈ i.operands, o.isFinal

/-- The instruction can be printed. -/
structure Final (t : Target) (i : Instruction) : Prop where
  fits : i.Fits t
  final : ∀ o ∈ i.operands, o.isFinal

variable {t : Target} {slots slots' : List Slot} {i : Instruction}

@[simp] theorem operands_generic (op : GenericOp) (os : List Operand) :
    (generic op os).operands = os :=
  rfl

@[simp] theorem operands_native (n : Nat) (os : List Operand) : (native n os).operands = os := rfl

@[simp] theorem operands_setOpcode (opcode : Opcode) :
    (i.setOpcode opcode).operands = i.operands :=
  rfl

@[simp] theorem operands_withRelation (r : Relation) :
    (i.withRelation r).operands = i.operands :=
  rfl

@[simp] theorem operands_addFlags (flags : Flags) : (i.addFlags flags).operands = i.operands := rfl

@[simp] theorem operands_withOperands (os : List Operand) : (i.withOperands os).operands = os := rfl

@[simp] theorem operands_replaceOperand (k : Nat) (o : Operand) :
    (i.replaceOperand k o).operands = i.operands.set k o :=
  rfl

@[simp] theorem operands_modifyOperand (k : Nat) (g : Operand → Operand) :
    (i.modifyOperand k g).operands = i.operands.modify k g :=
  rfl

@[simp] theorem operands_eraseOperand (k : Nat) :
    (i.eraseOperand k).operands = i.operands.eraseIdx k :=
  rfl

@[simp] theorem operands_push (o : Operand) : (i.push o).operands = i.operands ++ [o] := rfl

theorem Shaped.mono (h : i.Shaped t slots) (hsub : slots ⊆ slots') : i.Shaped t slots' :=
  ⟨h.form, fun o ho s hs => hsub (h.inFrame o ho s hs), h.symbol, h.related⟩

theorem mem_operands_of_mem_uses {o : Operand} (h : o ∈ i.uses) : o ∈ i.operands := by
  rw [uses] at h
  split at h
  · exact List.mem_of_mem_tail h
  · exact h

theorem isGeneric_iff {op : GenericOp} : i.isGeneric op ↔ i.opcode = .generic op := by
  simp [isGeneric]

theorem generic?_eq_some {op : GenericOp} (h : i.generic? = some op) : i.opcode = .generic op := by
  rw [generic?] at h
  cases hcode : i.opcode with
  | generic op' =>
    rw [hcode] at h
    cases h
    rfl
  | native n =>
    rw [hcode] at h
    cases h

theorem Shaped.layout_mem (h : i.Shaped t slots) {op : GenericOp} (hop : i.opcode = .generic op) :
    i.layout ∈ op.layouts := by
  have hform := h.form
  rw [hop] at hform
  exact hform

theorem Shaped.length_ret_le (h : i.Shaped t slots) (hop : i.opcode = .generic .ret) :
    i.operands.length ≤ 1 := by
  have hlength : i.layout.length = i.operands.length := List.length_map _
  rw [← hlength]
  rcases List.mem_cons.mp (h.layout_mem hop) with heq | hlayout
  · simp [heq]
  · simp [List.mem_singleton.mp hlayout]

theorem operands_of_layout₂ {x y : Bool} (h : i.layout = [x, y]) :
    ∃ o₁ o₂, i.operands = [o₁, o₂] ∧ o₁.isPlace = x ∧ o₂.isPlace = y := by
  obtain ⟨o₁, rest, hops, hx, h⟩ := List.map_eq_cons_iff.mp h
  obtain ⟨o₂, rest, rfl, hy, h⟩ := List.map_eq_cons_iff.mp h
  rw [List.map_eq_nil_iff] at h
  subst h
  exact ⟨o₁, o₂, hops, hx, hy⟩

theorem operands_of_layout₃ {x y z : Bool} (h : i.layout = [x, y, z]) :
    ∃ o₁ o₂ o₃, i.operands = [o₁, o₂, o₃] ∧ o₁.isPlace = x ∧ o₂.isPlace = y ∧ o₃.isPlace = z := by
  obtain ⟨o₁, rest, hops, hx, h⟩ := List.map_eq_cons_iff.mp h
  obtain ⟨o₂, rest, rfl, hy, h⟩ := List.map_eq_cons_iff.mp h
  obtain ⟨o₃, rest, rfl, hz, h⟩ := List.map_eq_cons_iff.mp h
  rw [List.map_eq_nil_iff] at h
  subst h
  exact ⟨o₁, o₂, o₃, hops, hx, hy, hz⟩

theorem shaped_of_generic {op : GenericOp} (hopcode : i.opcode = .generic op)
    (hlayout : i.layout ∈ op.layouts) (hframe : ∀ o ∈ i.operands, o.isPlace → o.IsPlaceIn slots)
    (hsymbol : op = .globalAddress → (i.operand? 1).any (·.isGlobal))
    (hrelated : op = .cmp → i.relation.isSome) : i.Shaped t slots := by
  refine ⟨?_, fun o ho s hs => ?_, fun hop => hsymbol ?_, fun hop => hrelated ?_⟩
  · rw [hopcode]
    exact hlayout
  · by_cases hplace : o.isPlace
    · exact (hframe o ho hplace).2 s hs
    · rw [Operand.slot?_eq_none (by simpa using hplace)] at hs
      cases hs
  · simpa [hopcode] using isGeneric_iff.mp hop
  · simpa [hopcode] using isGeneric_iff.mp hop

/-- A new instruction is shaped if its operands are; a compare gets its relation later. -/
theorem shaped_generic {op : GenericOp} {operands : List Operand}
    (hlayout : operands.map (·.isPlace) ∈ op.layouts)
    (hframe : ∀ o ∈ operands, o.isPlace → o.IsPlaceIn slots)
    (hop : (op = .globalAddress → operands[1]?.any (·.isGlobal)) ∧ op ≠ .cmp) :
    (Instruction.generic op operands).Shaped t slots :=
  shaped_of_generic rfl hlayout hframe hop.1 fun h => absurd h hop.2

/-- A new instruction without places is shaped if it has as many operands as its operation asks
for. -/
theorem shaped_plain {op : GenericOp} {operands : List Operand}
    (hlength : List.replicate operands.length false ∈ op.layouts)
    (hplaces : ∀ o ∈ operands, o.isPlace = false) (hop : op ≠ .globalAddress ∧ op ≠ .cmp) :
    (Instruction.generic op operands).Shaped t slots := by
  have hlayout : operands.map (·.isPlace) = List.replicate operands.length false :=
    List.eq_replicate_iff.mpr ⟨by simp, by simpa using hplaces⟩
  refine shaped_generic (by rwa [hlayout]) (fun o ho hplace => ?_)
    ⟨fun h => absurd h hop.1, hop.2⟩
  simp [hplaces o ho] at hplace

theorem shaped_native {n : Nat} (hopcode : i.opcode = .native n) (hfits : i.Fits t)
    (hplaces : ∀ o ∈ i.operands, o.isPlace = false) : i.Shaped t slots := by
  refine ⟨?_, fun o ho s hs => ?_, fun hop => ?_, fun hop => ?_⟩
  · rw [hopcode]
    refine ⟨hfits, fun hplace => ?_⟩
    obtain ⟨o, ho, hplace⟩ := List.mem_map.mp hplace
    simp [hplaces o ho] at hplace
  · simp [Operand.slot?_eq_none (hplaces o ho)] at hs
  · simp [isGeneric_iff, hopcode] at hop
  · simp [isGeneric_iff, hopcode] at hop

theorem Fits.congr {i' : Instruction} (h : i.Fits t) (hopcode : i'.opcode = i.opcode)
    (hlength : i'.operands.length = i.operands.length) : i'.Fits t := by
  obtain ⟨hselected, template, htemplate, hcount⟩ := h
  refine ⟨?_, template, ?_, by rw [hlength, hcount]⟩
  · rwa [isSelected, hopcode]
  · rwa [Target.template?, hopcode]

/-- Instructions with the same opcode and operands of the same traits have the same shape. -/
theorem Shaped.congr {i' : Instruction} (h : i.Shaped t slots) (hopcode : i'.opcode = i.opcode)
    (hrelation : i'.relation = i.relation)
    (htraits : i'.operands.map (·.traits) = i.operands.map (·.traits)) : i'.Shaped t slots := by
  have hlayout : i'.layout = i.layout := by
    have := congrArg (List.map Prod.fst) htraits
    simpa [layout, Operand.traits, Function.comp_def] using this
  have hlength : i'.operands.length = i.operands.length := by
    simpa using congrArg List.length htraits
  refine ⟨?_, fun o ho s hs => ?_, fun hop => ?_, fun hop => ?_⟩
  · have hform := h.form
    rw [hopcode, hlayout]
    cases hcode : i.opcode with
    | generic op => simpa [hcode] using hform
    | native n =>
      simp only [hcode] at hform
      exact ⟨hform.1.congr hopcode hlength, hform.2⟩
  · obtain ⟨o', ho', heq⟩ := List.mem_map.mp (htraits ▸ List.mem_map_of_mem ho)
    have hslot : o'.slot? = o.slot? := congrArg (fun x => x.2.1) heq
    exact h.inFrame o' ho' s (hslot ▸ hs)
  · have hone := h.symbol (by rwa [isGeneric, ← hopcode])
    have hget := congrArg (fun l : List (Bool × Option Slot × Bool) => l[1]?) htraits
    simp only [List.getElem?_map] at hget
    rw [operand?] at hone ⊢
    cases ho : i.operands[1]? with
    | none => simp [ho] at hone
    | some o =>
      rw [ho] at hget hone
      cases ho' : i'.operands[1]? with
      | none => simp [ho'] at hget
      | some o' =>
        rw [ho'] at hget
        have hglobal : o'.isGlobal = o.isGlobal := congrArg (fun x => x.2.2) (Option.some.inj hget)
        simpa [hglobal] using hone
  · rw [hrelation]
    exact h.related (by rwa [isGeneric, ← hopcode])

theorem Shaped.markExpanded (h : i.Shaped t slots) : i.markExpanded.Shaped t slots :=
  h.congr rfl rfl rfl

theorem Shaped.replaceOperand (h : i.Shaped t slots) {o o' : Operand} {n : Nat}
    (ho : i.operand? n = some o) (htraits : o'.traits = o.traits) :
    (i.replaceOperand n o').Shaped t slots := by
  refine h.congr rfl rfl ?_
  show (i.operands.set n o').map (·.traits) = i.operands.map (·.traits)
  obtain ⟨hn, hget⟩ := List.getElem?_eq_some_iff.mp ho
  have hlength : n < (i.operands.map (·.traits)).length := by simpa using hn
  have hmap : o.traits = (i.operands.map (·.traits))[n] := by simp [hget]
  rw [List.map_set, htraits, hmap, List.set_getElem_self]

theorem modifyOperand_eq {o : Operand} {n : Nat} (ho : i.operand? n = some o)
    (g : Operand → Operand) : i.modifyOperand n g = i.replaceOperand n (g o) := by
  obtain ⟨hn, rfl⟩ := List.getElem?_eq_some_iff.mp ho
  rw [modifyOperand, replaceOperand]
  congr 1
  refine List.ext_getElem? fun m => ?_
  rw [List.getElem?_modify, List.getElem?_set]
  by_cases hm : n = m
  · subst hm
    simp [hn]
  · simp [hm]

theorem Shaped.setOpcode (h : i.Shaped t slots) {op op' : GenericOp} (hop : i.opcode = .generic op)
    (hlayouts : op'.layouts = op.layouts) (hop' : op' ≠ .globalAddress ∧ op' ≠ .cmp) :
    (i.setOpcode (.generic op')).Shaped t slots := by
  refine shaped_of_generic rfl (hlayouts ▸ h.layout_mem hop) (fun o ho hplace => ?_)
    (fun heq => absurd heq hop'.1) (fun heq => absurd heq hop'.2)
  exact ⟨hplace, h.inFrame o ho⟩

end Instruction

/-! ## Functions -/

namespace Function

variable {f : Function} {P : Instruction → Prop}

def slots (f : Function) : List Slot := f.frame.objects.map (·.slot)

def All (f : Function) (P : Instruction → Prop) : Prop := ∀ i ∈ f.instructions, P i

theorem mem_instructions {i : Instruction} :
    i ∈ f.instructions ↔ ∃ b ∈ f.blocks, i ∈ b.instructions := by
  simp [instructions]

theorem forall₂_instructions {R : Instruction → Instruction → Prop} {blocks blocks' : List Block}
    (h : List.Forall₂ (fun b b' : Block => List.Forall₂ R b.instructions b'.instructions)
      blocks blocks') :
    List.Forall₂ R (blocks.flatMap (·.instructions)) (blocks'.flatMap (·.instructions)) :=
  List.rel_flatMap h fun _ _ h => h

theorem mem_of_instruction? {b k : Nat} {i : Instruction} (h : f.instruction? b k = some i) :
    i ∈ f.instructions := by
  obtain ⟨block, hblock, hi⟩ := Option.bind_eq_some_iff.mp h
  exact mem_instructions.mpr ⟨block, List.mem_of_getElem? hblock, List.mem_of_getElem? hi⟩

theorem exists_instruction?_of_mem {i : Instruction} (h : i ∈ f.instructions) :
    ∃ b k, f.instruction? b k = some i := by
  obtain ⟨block, hblock, hi⟩ := mem_instructions.mp h
  obtain ⟨b, hb⟩ := List.mem_iff_getElem?.mp hblock
  obtain ⟨k, hk⟩ := List.mem_iff_getElem?.mp hi
  exact ⟨b, k, Option.bind_eq_some_iff.mpr ⟨block, hb, hk⟩⟩

/-- What is left of a block from an index on. -/
def rest (f : Function) (b k : Nat) : List Instruction :=
  match f.blocks[b]? with
  | some block => block.instructions.drop k
  | none => []

theorem instruction?_eq_head? (f : Function) (b k : Nat) :
    f.instruction? b k = (f.rest b k).head? := by
  rw [instruction?, rest]
  cases f.blocks[b]? with
  | none => rfl
  | some block => simp

theorem rest_succ (f : Function) (b k : Nat) : f.rest b (k + 1) = (f.rest b k).tail := by
  rw [rest, rest]
  cases f.blocks[b]? with
  | none => rfl
  | some block => simp

theorem rest_of_instruction? {b k : Nat} {i : Instruction} (h : f.instruction? b k = some i) :
    f.rest b k = i :: f.rest b (k + 1) := by
  rw [instruction?_eq_head?] at h
  rw [rest_succ]
  cases hrest : f.rest b k with
  | nil => simp [hrest] at h
  | cons j is =>
    rw [hrest] at h
    cases h
    rfl

theorem rest_of_none {b k : Nat} (h : f.instruction? b k = none) : f.rest b k = [] := by
  rwa [instruction?_eq_head?, List.head?_eq_none_iff] at h

theorem instruction?_of_rest {b k : Nat} {i : Instruction} {is : List Instruction}
    (h : f.rest b k = i :: is) : f.instruction? b k = some i := by
  rw [instruction?_eq_head?, h]
  rfl

theorem instructionAt_eq {b k : Nat} {i : Instruction} (h : f.instruction? b k = some i) :
    f.instructionAt b k = .ok i := by
  rw [instructionAt, h]
  rfl

theorem fresh_eq_ok {r : RegId × Function} (h : f.fresh = .ok r) :
    r = (f.nextId, { f with nextId := f.nextId + 1 }) := by
  obtain ⟨next, hnext, h⟩ := bind_eq_ok.mp h
  rw [Word.fit] at hnext
  split at hnext
  · cases hnext
    exact (pure_eq_ok.mp h).symm
  · cases hnext

theorem yields_fresh (f : Function) :
    Yields (fun r => r.2.blocks = f.blocks ∧ r.2.frame = f.frame) f.fresh := by
  rw [fresh]
  exact (yields_fit _ _).bind fun _ _ => .pure ⟨rfl, rfl⟩

theorem mem_modifyBlock {b : Nat} {change : Block → Block} {i : Instruction}
    (h : i ∈ (f.modifyBlock b change).instructions) :
    i ∈ f.instructions ∨ ∃ block, f.blocks[b]? = some block ∧ i ∈ (change block).instructions := by
  obtain ⟨block, hblock, hi⟩ := mem_instructions.mp h
  obtain ⟨k, hk⟩ := List.mem_iff_getElem?.mp hblock
  rw [modifyBlock, List.getElem?_modify, Option.map_eq_map, Option.map_eq_some_iff] at hk
  obtain ⟨old, hold, heq⟩ := hk
  split at heq
  · next hb =>
    subst hb heq
    exact .inr ⟨old, hold, hi⟩
  · cases heq
    exact .inl (mem_instructions.mpr ⟨block, List.mem_of_getElem? hold, hi⟩)

theorem mem_splice {block : Block} {k count : Nat} {new : List Instruction} {i : Instruction}
    (h : i ∈ (block.splice k count new).instructions) : i ∈ block.instructions ∨ i ∈ new := by
  rw [Block.splice] at h
  rcases List.mem_append.mp h with h | h
  · rcases List.mem_append.mp h with h | h
    · exact .inl (List.mem_of_mem_take h)
    · exact .inr h
  · exact .inl (List.mem_of_mem_drop h)

theorem All.spliceBlock (h : f.All P) {b k count : Nat} {new : List Instruction}
    (hnew : ∀ i ∈ new, P i) : (f.modifyBlock b fun block => block.splice k count new).All P := by
  intro i hi
  rcases mem_modifyBlock hi with hi | ⟨block, hblock, hi⟩
  · exact h i hi
  · rcases mem_splice hi with hi | hi
    · exact h i (mem_instructions.mpr ⟨block, List.mem_of_getElem? hblock, hi⟩)
    · exact hnew i hi

theorem All.replaceAt (h : f.All P) {b k : Nat} {new : List Instruction}
    (hnew : ∀ i ∈ new, P i) : (f.replaceAt b k new).All P :=
  h.spliceBlock hnew

end Function

end Retarget.Machine
