import Mathlib.Data.Int.Notation
import Retarget.Proofs.Convention.Allocated
import Retarget.Proofs.Encoding.Access
import Retarget.Proofs.Stack.Balance

/-!
# Offsets of loads and stores

The offset of a place is settled when code is lowered: it is that of the place, and for a place in
the frame the position of its slot on top (`Operand.resolvedOffset?`).  No later pass changes or
checks it (`offsets_accesses`).  Frame code adds loads and stores of the saved registers.  So the
offsets of native code can be encoded exactly if those of lowered code can, and those of the save
slots (`offsetsFit_iff`).
-/

namespace Retarget

open Machine Target

/-- The offset can be written into a native load or store of so many bytes. -/
def Arch.Encodes (a : Arch) (bytes : Nat) (n : Int) : Prop :=
  match a with
  | aarch64 => -256 ≤ n ∧ n ≤ 255 ∨ 0 ≤ n ∧ n ≤ 4095 * bytes ∧ (bytes : Int) ∣ n
  | riscv32 => -2048 ≤ n ∧ n ≤ 2047

instance (a : Arch) (bytes : Nat) (n : Int) : Decidable (a.Encodes bytes n) :=
  match a with
  | .aarch64 => inferInstanceAs (Decidable (_ ∨ _))
  | .riscv32 => inferInstanceAs (Decidable (_ ∧ _))

/-- How many bytes are stored of a register that is saved. -/
def Arch.savedBytes (a : Arch) (reg : RegId) : Nat :=
  a.movedBits (Function.savedAt a.target reg 0).1.operand / 8

/-- The access has an offset, which can be encoded. -/
def Access.Fits (a : Arch) (x : Access) : Prop := ∃ n ∈ x.offset, a.Encodes x.bytes n

instance (a : Arch) (x : Access) : Decidable (x.Fits a) :=
  inferInstanceAs (Decidable (∃ n ∈ x.offset, a.Encodes x.bytes n))

namespace Machine

def Function.OffsetsFit (a : Arch) (f : Function) : Prop := ∀ x ∈ f.accesses a, x.Fits a

instance (a : Arch) (f : Function) : Decidable (f.OffsetsFit a) :=
  inferInstanceAs (Decidable (∀ x ∈ f.accesses a, x.Fits a))

/-- The offset of a place from the register that it is relative to, once the frame is laid out. -/
def Operand.resolvedOffset? (frame : Frame) (o : Operand) : Option Int :=
  match o.kind with
  | .memory _ offset => some offset
  | .stack slot offset => (frame.position? slot).toOption.join.map fun position => position + offset
  | _ => none

/-- The resolved offset of a load or store before allocation. -/
def Instruction.placeOffset? (frame : Frame) (i : Instruction) : Option (Option Int) :=
  match i.generic? with
  | some .load | some .store | some .zextLoad =>
    some ((i.operands.find? (·.isPlace)).bind (·.resolvedOffset? frame))
  | _ => none

/-- The resolved offsets of all loads and stores before allocation, in their order. -/
def Function.placeOffsets (f : Function) : List (Option Int) :=
  f.instructions.filterMap (·.placeOffset? f.frame)

end Machine

namespace Machine

variable {frame : Frame} {i j : Instruction} {a : Arch}

/-! ## Legalization -/

namespace Instruction

theorem placeOffset?_eq_none {op : GenericOp} (hop : i.generic? = some op) (hplain : op.IsPlain) :
    i.placeOffset? frame = none := by
  rw [placeOffset?, hop]
  cases op <;> first | rfl | simp [GenericOp.IsPlain] at hplain

theorem placeOffset?_native (h : i.generic? = none) : i.placeOffset? frame = none := by
  rw [placeOffset?, h]

theorem placeOffset?_congr (hop : j.generic? = i.generic?)
    (hplace : j.operands.find? (·.isPlace) = i.operands.find? (·.isPlace)) :
    j.placeOffset? frame = i.placeOffset? frame := by
  rw [placeOffset?, placeOffset?, hop, hplace]

end Instruction

theorem find?_set {α : Type} {p : α → Bool} {l : List α} {k : Nat} {x y : α}
    (hx : l[k]? = some x) (hpx : p x = false) (hpy : p y = false) :
    (l.set k y).find? p = l.find? p := by
  induction l generalizing k with
  | nil => rfl
  | cons z l ih =>
    cases k with
    | zero =>
      cases hx
      rw [List.set_cons_zero, List.find?_cons_of_neg (by simp [hpy]),
        List.find?_cons_of_neg (by simp [hpx])]
    | succ k =>
      rw [List.set_cons_succ, List.find?_cons, List.find?_cons, ih hx]

theorem placeOffset?_rewrite {next used : Nat} {new : List Instruction}
    (h : Rewrite a next i used new) :
    new.filterMap (·.placeOffset? frame) = [i].filterMap (·.placeOffset? frame) := by
  have hnone : ∀ {j : Instruction} {op : GenericOp}, j.generic? = some op → op.IsPlain →
      j.placeOffset? frame = none := fun hop => Instruction.placeOffset?_eq_none hop
  have hself : ∀ {op : GenericOp}, i.generic? = some op → op.IsPlain →
      (∀ j ∈ new, j.placeOffset? frame = none) →
      new.filterMap (·.placeOffset? frame) = [i].filterMap (·.placeOffset? frame) := by
    intro op hop hplain hnew
    rw [List.filterMap_eq_nil_iff.mpr hnew, List.filterMap_cons, hnone hop hplain]
    rfl
  cases h with
  | @materialize op k imm hop huse hk himm =>
    have hload : (loadImmediate (.virtualReg next imm.ty) imm).placeOffset? frame = none :=
      hnone rfl (by decide)
    rw [List.filterMap_cons, hload]
    have hsame : (i.replaceOperand k (.virtualReg next imm.ty)).placeOffset? frame =
        i.placeOffset? frame :=
      Instruction.placeOffset?_congr rfl
        (find?_set hk (Operand.isPlace_of_isImmediate himm) rfl)
    simp only [List.filterMap_cons, hsame, List.filterMap_nil]
  | @convert op dest source value folded hop hconversion =>
    refine hself hop ?_ (by simpa using hnone rfl (by decide))
    cases op <;> first | decide | cases hconversion
  | remainder ha hop hdivision =>
    refine hself hop ?_ ?_
    · rcases hdivision with ⟨rfl, -⟩ | ⟨rfl, -⟩ <;> decide
    · simp only [List.mem_cons, List.not_mem_nil, or_false, forall_eq_or_imp, forall_eq]
      refine ⟨hnone rfl ?_, hnone rfl (by decide), hnone rfl (by decide)⟩
      rcases hdivision with ⟨-, rfl⟩ | ⟨-, rfl⟩ <;> decide
  | flip ha hop hflipped =>
    rcases hflipped with ⟨rfl, rfl⟩ | ⟨rfl, rfl⟩ <;>
      exact hself hop (by decide) (by simpa using hnone rfl (by decide))
  | address ha hop =>
    refine hself hop (by decide) ?_
    simp only [List.mem_cons, List.not_mem_nil, or_false, forall_eq_or_imp, forall_eq]
    exact ⟨Instruction.placeOffset?_native rfl, hnone rfl (by decide)⟩
  | swap ha hop => exact hself hop (by decide) (by simpa using hnone rfl (by decide))
  | notLess ha hop =>
    exact hself hop (by decide) (by simpa using ⟨hnone rfl (by decide), hnone rfl (by decide)⟩)
  | equal ha hop =>
    exact hself hop (by decide) (by simpa using ⟨hnone rfl (by decide), hnone rfl (by decide)⟩)
  | different ha hop =>
    exact hself hop (by decide) (by simpa using ⟨hnone rfl (by decide), hnone rfl (by decide)⟩)

theorem placeOffset?_extendingLoad {load zext : Instruction} {dest loaded : Operand}
    {rest : List Operand} (hload : load.opcode = .generic .load)
    (hzext : zext.generic? = some .zext) (hoperands : load.operands = loaded :: rest)
    (hloaded : loaded.isPlace = false) (hdest : dest.isPlace = false) :
    [extendingLoad load dest loaded rest].filterMap (·.placeOffset? frame) =
      [load, zext].filterMap (·.placeOffset? frame) := by
  have hplace : (extendingLoad load dest loaded rest).placeOffset? frame =
      load.placeOffset? frame := by
    have hop : load.generic? = some .load := by rw [Instruction.generic?, hload]; rfl
    have hfind : (extendingLoad load dest loaded rest).operands.find? (·.isPlace) =
        load.operands.find? (·.isPlace) := by
      rw [hoperands, List.find?_cons_of_neg (by simp [hloaded])]
      show (dest :: .immediate loaded.size loaded.ty :: rest).find? (·.isPlace) = _
      rw [List.find?_cons_of_neg (by simp [hdest]), List.find?_cons_of_neg (by simp)]
    rw [Instruction.placeOffset?, Instruction.placeOffset?, hop, hfind]
    rfl
  have hnone : zext.placeOffset? frame = none :=
    Instruction.placeOffset?_eq_none hzext (by decide)
  simp only [List.filterMap_cons, hplace, hnone, List.filterMap_nil]

namespace Function

variable {f g : Function} {b k : Nat} {old new : List Instruction}

theorem Replaces.filterMap_instructions {α : Type} {p : Instruction → Option α}
    (h : f.Replaces b k old new g) (hnew : new.filterMap p = old.filterMap p) :
    g.instructions.filterMap p = f.instructions.filterMap p := by
  obtain ⟨before, after, hf, hg⟩ := h.instructions_eq
  simp only [hf, hg, List.filterMap_append, hnew]

theorem Replaces.placeOffsets (h : f.Replaces b k old new g)
    (hnew : new.filterMap (·.placeOffset? f.frame) = old.filterMap (·.placeOffset? f.frame)) :
    g.placeOffsets = f.placeOffsets := by
  rw [Function.placeOffsets, h.frame]
  exact h.filterMap_instructions hnew

/-- **Legalization keeps the offsets of places.** -/
theorem placeOffsets_legalize (hf : f.All (·.Shaped a.target f.slots))
    (h : f.legalize a.target = .ok g) : g.placeOffsets = f.placeOffsets := by
  refine (KeptBy.legalize (R := fun _ _ g => g.ShapedOver a.target f.slots ∧
    g.placeOffsets = f.placeOffsets) ⟨?_, ?_, ?_⟩ ⟨⟨rfl, hf⟩, rfl⟩ h).2
  · rintro g g' b k i ⟨hshaped, hsame⟩ hi hlegal hexpandable hexpand
    refine ⟨(a.sound.expands _ _ _ _ _ hshaped hi hlegal hexpandable).of_eq_ok hexpand,
      Eq.trans ?_ hsame⟩
    rcases Arch.expand_cases hi hlegal hexpandable hexpand with
      ⟨used, new, hrewrite, hreplaces, -⟩ | ⟨-, load, dest, source, loaded, extra, rest, r, hfolds⟩
    · exact hreplaces.placeOffsets (placeOffset?_rewrite hrewrite)
    · have hreplaces := hfolds.replaces.2
      have hload := hfolds.mem_instructions.1
      have hloaded : loaded.isPlace = false := by
        have hlayout := (hshaped.all load hload).layout_mem hfolds.isLoad
        simp only [GenericOp.layouts, List.mem_singleton] at hlayout
        obtain ⟨o₁, o₂, hops, hplace, -⟩ := Instruction.operands_of_layout₂ hlayout
        cases hfolds.loadOperands.symm.trans hops
        exact hplace
      have hdest : dest.isPlace = false := by
        have hlayout := (hshaped.all i (mem_of_instruction? hi)).layout_mem
          (Instruction.generic?_eq_some hfolds.isZext)
        simp only [GenericOp.layouts, List.mem_singleton] at hlayout
        obtain ⟨o₁, o₂, hops, hplace, -⟩ := Instruction.operands_of_layout₂ hlayout
        cases hfolds.zextOperands.symm.trans hops
        exact hplace
      exact hreplaces.placeOffsets (placeOffset?_extendingLoad hfolds.isLoad hfolds.isZext
        hfolds.loadOperands hloaded hdest)
  · exact fun hR _ => hR
  · exact fun hR _ => hR

/-! ## Classes and moves before returns -/

theorem filterMap_of_forall₂ {α β γ : Type} {R : α → β → Prop} {p : α → Option γ} {q : β → Option γ}
    (hR : ∀ x y, R x y → q y = p x) {xs : List α} {ys : List β} (h : List.Forall₂ R xs ys) :
    ys.filterMap q = xs.filterMap p := by
  induction h with
  | nil => rfl
  | cons hfirst _ ih => rw [List.filterMap_cons, List.filterMap_cons, hR _ _ hfirst, ih]

theorem filterMap_instructions {α : Type} {R : Instruction → Instruction → Prop}
    {p q : Instruction → Option α} (hR : ∀ i j, R i j → q j = p i)
    (h : List.Forall₂ (fun b b' : Block => List.Forall₂ R b.instructions b'.instructions)
      f.blocks g.blocks) :
    g.instructions.filterMap q = f.instructions.filterMap p :=
  filterMap_of_forall₂ hR (forall₂_instructions h)

theorem placeOffset?_recast (h : i.Recast j) : j.placeOffset? frame = i.placeOffset? frame := by
  have hfind : ∀ {os os' : List Operand},
      List.Forall₂ (fun o o' : Operand => o'.kind = o.kind ∧ o'.ty = o.ty) os os' →
      (os'.find? (·.isPlace)).bind (·.resolvedOffset? frame) =
        (os.find? (·.isPlace)).bind (·.resolvedOffset? frame) := by
    intro os os' hos
    induction hos with
    | nil => rfl
    | @cons o o' os os' hfirst _ ih =>
      have hplace : o'.isPlace = o.isPlace :=
        congrArg Prod.fst (Operand.traits_congr hfirst.1)
      rw [List.find?_cons, List.find?_cons, hplace]
      cases o.isPlace with
      | true => simp only [Option.bind_some, Operand.resolvedOffset?, hfirst.1]
      | false => exact ih
  rw [Instruction.placeOffset?, Instruction.placeOffset?, Instruction.generic?,
    Instruction.generic?, h.opcode, hfind h.operands]

theorem placeOffsets_selectClasses (t : Target) (f : Function) :
    (f.selectClasses t).placeOffsets = f.placeOffsets :=
  filterMap_instructions (fun _ _ => placeOffset?_recast) (recast_selectClasses t f)

theorem filterMap_moveReturn {α : Type} {t : Target} {p : Instruction → Option α}
    (hp : ∀ op, op = .mov ∨ op = .movf ∨ op = .ret → ∀ j : Instruction, j.generic? = some op →
      p j = none) {home : Option RegId} (h : ∀ reg, home = some reg → i.generic? = some .ret) :
    (moveReturn t i home).filterMap p = [i].filterMap p := by
  unfold moveReturn
  split
  · next reg value hvalue =>
    have hret := h reg rfl
    have hself : p i = none := hp .ret (by simp) i hret
    have hreturn : ∀ o, p (i.replaceOperand 0 o) = none := fun o => hp .ret (by simp) _ hret
    simp only [List.filterMap_cons, List.filterMap_nil, hreturn, hself]
    rw [hp _ _ _ rfl]
    split <;> simp
  · rfl

/-- Moves before returns that leave no results change nothing about the results. -/
theorem filterMap_code {α : Type} {t : Target} {p : Instruction → Option α}
    {plan : List (Instruction × Option RegId)}
    (h : ∀ e ∈ plan, (moveReturn t e.1 e.2).filterMap p = [e.1].filterMap p) :
    (Plan.code t plan).filterMap p = (plan.map (·.1)).filterMap p := by
  induction plan with
  | nil => rfl
  | cons e plan ih =>
    obtain ⟨hfirst, hrest⟩ := List.forall_mem_cons.mp h
    calc (Plan.code t (e :: plan)).filterMap p
        = (moveReturn t e.1 e.2 ++ Plan.code t plan).filterMap p := rfl
      _ = [e.1].filterMap p ++ (plan.map (·.1)).filterMap p := by
          rw [List.filterMap_append, hfirst, ih hrest]
      _ = _ := List.filterMap_append.symm

theorem frame_assignRegisters {alloc : Allocation}
    (h : f.assignRegisters a.target = .ok (alloc, g)) : g.frame = f.frame := by
  obtain ⟨params, bound, g', s, -, hreturns, -, -, rfl⟩ := assignRegisters_cases a.regular h
  obtain ⟨plan, -, -, -, hg'⟩ := bindReturns_plan hreturns
  rw [hg']

theorem filterMap_assignRegisters {α : Type} {p : Instruction → Option α} {alloc : Allocation}
    (hp : ∀ op, op = .mov ∨ op = .movf ∨ op = .ret → ∀ j : Instruction, j.generic? = some op →
      p j = none) (hf : f.All (·.Undisturbed a))
    (h : f.assignRegisters a.target = .ok (alloc, g)) :
    g.instructions.filterMap p = f.instructions.filterMap p := by
  obtain ⟨params, bound, g', s, -, hreturns, -, -, rfl⟩ := assignRegisters_cases a.regular h
  obtain ⟨plan, hplan, hfst, hcode, -⟩ := bindReturns_plan hreturns
  show g'.instructions.filterMap p = _
  rw [hcode, ← hfst]
  refine filterMap_code fun e he => filterMap_moveReturn hp fun reg hreg => ?_
  obtain ⟨id, ty, hreturned⟩ := hplan.movable e.1 reg (hreg ▸ he)
  have hmem : e.1 ∈ f.instructions := hfst ▸ List.mem_map_of_mem he
  have hreturn := (hf e.1 hmem).returns.mp (returned?_eq_some hreturned).1
  rw [Instruction.generic?, hreturn]
  rfl

theorem placeOffsets_assignRegisters {alloc : Allocation} (hf : f.All (·.Undisturbed a))
    (h : f.assignRegisters a.target = .ok (alloc, g)) : g.placeOffsets = f.placeOffsets := by
  rw [placeOffsets, frame_assignRegisters h]
  refine filterMap_assignRegisters (fun op hop j hj => ?_) hf h
  rcases hop with rfl | rfl | rfl <;> exact Instruction.placeOffset?_eq_none hj (by decide)

/-! ## Placing -/

variable {assigned : List (RegId × RegId)} {slots : List Slot}

theorem find?_placeOperand {t : Target} {name : String} {os os' : List Operand}
    (h : List.Forall₂ (fun o o' => placeOperand t name assigned o = .ok o') os os') :
    os'.find? (·.isPlace) = os.find? (·.isPlace) := by
  induction h with
  | nil => rfl
  | @cons o o' os os' hfirst _ ih =>
    rw [List.find?_cons, List.find?_cons, isPlace_placeOperand hfirst, ih]
    cases hplace : o.isPlace with
    | false => rfl
    | true =>
      have hsame : o' = o := by
        obtain ⟨kind, ty, regClass⟩ := o
        cases kind with
        | memory | stack => exact (Except.ok.inj hfirst).symm
        | _ => cases hplace
      rw [hsame]

theorem resolvedOffset?_of_resolveMemory {t : Target} {o : Operand} {base : RegId} {offset : Int}
    (h : resolveMemory t f assigned o = .ok (base, offset)) :
    o.resolvedOffset? f.frame = some offset := by
  obtain ⟨kind, ty, regClass⟩ := o
  cases kind with
  | memory r n =>
    obtain ⟨reg, -, h⟩ := bind_eq_ok.mp h
    cases h
    rfl
  | stack slot n =>
    obtain ⟨position?, hposition, h⟩ := bind_eq_ok.mp h
    obtain ⟨position, hsome, h⟩ := bind_eq_ok.mp h
    obtain ⟨sum, hsum, h⟩ := bind_eq_ok.mp h
    cases h
    rw [orFail_eq_ok] at hsome
    rw [Word.fitSigned] at hsum
    split at hsum
    · cases hsum
      simp [Operand.resolvedOffset?, hposition, hsome, Except.toOption]
    · cases hsum
  | _ => cases h

/-- An instruction with a place gets its base and its offset behind the other operands. -/
theorem exists_of_placeInstruction (hplace : true ∈ i.layout)
    (h : placeInstruction a.target f assigned i = .ok j) :
    j.opcode = i.opcode ∧ ∃ others base offset, j.operands = others ++
        [.physicalReg base a.target.pointerType, .immediate offset a.target.offsetType] ∧
      others.length + 1 = i.operands.length ∧
      (i.operands.find? (·.isPlace)).bind (·.resolvedOffset? f.frame) = some offset := by
  obtain ⟨operands, hoperands, hcases⟩ := placeInstruction_cases h
  have hplaced := forall₂_of_mapM_eq_ok hoperands
  have hfind := find?_placeOperand hplaced
  obtain ⟨o, ho, hisplace⟩ := List.mem_map.mp hplace
  obtain ⟨hnone, -⟩ | ⟨before, place, after, base, offset, rfl, hbefore, hplace, hresolve, rfl⟩ :=
    hcases
  · rw [List.find?_eq_none.mpr (by simpa using hnone), eq_comm, List.find?_eq_none] at hfind
    exact absurd hisplace (hfind o ho)
  · refine ⟨rfl, before ++ after, base, offset, rfl, ?_, ?_⟩
    · rw [hplaced.length_eq, List.length_append, List.length_append, List.length_cons]
      omega
    · rw [← hfind, List.find?_append, List.find?_eq_none.mpr (by simpa using hbefore),
        List.find?_cons_of_pos hplace]
      exact resolvedOffset?_of_resolveMemory hresolve

/-- **Allocation gives a load or store the resolved offset of its place.** -/
theorem offset_placeInstruction (hi : i.Undisturbed a) (hshaped : i.Shaped a.target slots)
    (h : placeInstruction a.target f assigned i = .ok j) :
    (a.access? j).map (·.offset) = i.placeOffset? f.frame := by
  have hopcode := opcode_placeInstruction h
  cases hcode : i.opcode with
  | native n =>
    have hrole : a.role j = .plain := by
      rw [← hi.role, Arch.role, Arch.role, hopcode]
    rw [Arch.access?_eq_none (hopcode.trans hcode) (by rw [hrole]; decide),
      Instruction.placeOffset?_native (by rw [Instruction.generic?, hcode]; rfl)]
    rfl
  | generic op =>
    have hop : i.generic? = some op := by rw [Instruction.generic?, hcode]; rfl
    have hcode' := hopcode.trans hcode
    have hlayout := hshaped.layout_mem hcode
    by_cases hplain : op.IsPlain
    · rw [Arch.access?_of_generic hcode' hplain, Instruction.placeOffset?_eq_none hop hplain]
      rfl
    · have hkind : (op = .load ∨ op = .store) ∧ i.layout.length = 2 ∧ true ∈ i.layout ∨
          op = .zextLoad ∧ i.layout.length = 3 ∧ true ∈ i.layout := by
        cases op <;> first | exact absurd (by decide) hplain | simp_all [GenericOp.layouts]
      have hlength : i.layout.length = i.operands.length := List.length_map _
      rcases hkind with ⟨hkind, htwo, hmem⟩ | ⟨rfl, hthree, hmem⟩
      · obtain ⟨-, others, base, offset, hoperands, hcount, hoffset⟩ :=
          exists_of_placeInstruction hmem h
        obtain ⟨o, rfl⟩ := List.length_eq_one_iff.mp (show others.length = 1 by omega)
        rw [Instruction.placeOffset?, hop, hoffset]
        rcases hkind with rfl | rfl <;>
        · rw [Arch.access?, hcode']
          simp [Instruction.operand?, hoperands, Operand.immediate, Operand.immediate?]
      · obtain ⟨-, others, base, offset, hoperands, hcount, hoffset⟩ :=
          exists_of_placeInstruction hmem h
        obtain ⟨o, o', rfl⟩ := List.length_eq_two.mp (show others.length = 2 by omega)
        rw [Instruction.placeOffset?, hop, hoffset, Arch.access?, hcode']
        simp [Instruction.operand?, hoperands, Operand.immediate, Operand.immediate?]

/-- **Allocated code has the offsets of the places before it.** -/
theorem offsets_allocateRegisters (hf : f.Untouched a) (hshaped : f.All (·.Shaped a.target f.slots))
    (h : f.allocateRegisters a.target = .ok g) :
    (g.accesses a).map (·.offset) = f.placeOffsets := by
  obtain ⟨alloc, f', blocks, hassign, rfl, hblocks⟩ := exists_placed_of_allocateRegisters h
  have hundisturbed := hf.assignRegisters hassign
  have hshaped' := shaped_assignRegisters a.regular hshaped hassign
  rw [← placeOffsets_assignRegisters hf.all hassign, accesses, List.map_filterMap, placeOffsets]
  refine filterMap_of_forall₂ ?_ ((List.forall₂_and_left _ _).mpr
    ⟨fun i hi => hi, forall₂_instructions hblocks⟩)
  rintro i j ⟨hi, hplace⟩
  exact offset_placeInstruction (hundisturbed i hi) (hshaped' i hi) hplace

/-! ## Save slots -/

theorem le_of_positionFrom {slot : Slot} {objects : List FrameObject} {start position : Nat}
    (h : Frame.positionFrom slot start objects = .ok (some position)) :
    position ≤ start + objects.foldr (fun o total => o.size + total) 0 := by
  induction objects generalizing start with
  | nil => cases h
  | cons o objects ih =>
    rw [Frame.positionFrom] at h
    rw [List.foldr_cons]
    split at h
    · cases h
      exact Nat.le_add_right _ _
    · obtain ⟨next, hnext, h⟩ := bind_eq_ok.mp h
      rw [Word.fit] at hnext
      split at hnext
      · cases hnext
        have := ih h
        omega
      · cases hnext

theorem placeOf_bounds {bytes : Nat} (h : frame.size = .ok bytes) (s : Saved) :
    0 ≤ placeOf frame s ∧ placeOf frame s ≤ bytes := by
  rw [placeOf]
  split
  · next position hposition =>
    have hle := le_of_positionFrom hposition
    rw [Frame.size, Word.fit] at h
    split at h
    · cases h
      omega
    · cases h
  · omega

theorem access?_adjustStack (t : Target) (op : GenericOp) (hop : op.IsPlain) (size : Nat) :
    a.access? (adjustStack t op size) = none :=
  Arch.access?_of_generic rfl hop

theorem access?_of_accessSaved {op : GenericOp} (hop : op = .load ∨ op = .store) {reg : RegId}
    {n : Nat} (h : accessSaved a.target frame op (savedAt a.target reg n).1 = .ok i) :
    a.access? i =
      some ⟨a.savedBytes reg, some (placeOf frame (savedAt a.target reg n).1)⟩ := by
  rw [accessSaved_eq_ok h]
  rcases hop with rfl | rfl <;> rfl

theorem mem_accesses_saved {op : GenericOp} (hop : op = .load ∨ op = .store)
    {entries : List (RegId × Nat)} {is : List Instruction}
    (h : (entries.map fun e => (savedAt a.target e.1 e.2).1).mapM
      (accessSaved a.target frame op) = .ok is) {x : Access} :
    (∃ i ∈ is, a.access? i = some x) ↔ ∃ e ∈ entries,
      x = ⟨a.savedBytes e.1, some (placeOf frame (savedAt a.target e.1 e.2).1)⟩ := by
  have haccess := List.forall₂_map_left_iff.mp (forall₂_of_mapM_eq_ok h)
  clear h
  induction haccess with
  | nil => simp
  | @cons e i entries is hfirst _ ih =>
    rw [List.exists_mem_cons_iff, List.exists_mem_cons_iff,
      access?_of_accessSaved hop hfirst, Option.some.injEq, eq_comm]
    exact or_congr_right ih

theorem mem_accesses_of_adds {is : List Instruction} (h : Adds a.target is f g) {x : Access} :
    x ∈ g.accesses a ↔ x ∈ f.accesses a ∨ ∃ i ∈ is, a.access? i = some x := by
  have hnew : ∀ {i new}, Becomes a.target i new →
      ((∃ j ∈ new, a.access? j = some x) ↔ a.access? i = some x) := by
    rintro i new ⟨f, b, k, hbecame⟩
    have hsame := congrArg (x ∈ ·) (Became.accesses hbecame)
    simpa [List.mem_filterMap] using hsame
  simp only [accesses, List.mem_filterMap]
  constructor
  · rintro ⟨j, hj, hx⟩
    rcases h.cases j hj with hj | ⟨i, hi, new, hnew', hj⟩
    · exact .inl ⟨j, hj, hx⟩
    · exact .inr ⟨i, hi, (hnew hnew').mp ⟨j, hj, hx⟩⟩
  · rintro (⟨j, hj, hx⟩ | ⟨i, hi, hx⟩)
    · exact ⟨j, h.kept hj, hx⟩
    · obtain ⟨new, hnew', hsub⟩ := h.added i hi
      obtain ⟨j, hj, hx⟩ := (hnew hnew').mpr hx
      exact ⟨j, hsub hj, hx⟩

/-- **Frame code adds the accesses to save slots**, which are in a frame within the limit. -/
theorem accesses_insertFrameCode (h : f.insertFrameCode a.target = .ok g) :
    (∀ x, x ∈ g.accesses a ↔ x ∈ f.accesses a ∨
      ∃ e ∈ placesOf a.target f g.frame, x = ⟨a.savedBytes e.1, some e.2⟩) ∧
    ∀ e ∈ placesOf a.target f g.frame, 0 ≤ e.2 ∧ e.2 ≤ maxFrameSize := by
  rcases adds_insertFrameCode h with
    ⟨rfl, hnone⟩ | ⟨bytes, size, saves, stores, loads, hbytes, hle, hsize, rfl, hstores, hloads,
      hadds⟩
  · simp [placesOf, hnone]
  · refine ⟨fun x => ?_, fun e he => ?_⟩
    · have hplaces : (∃ e ∈ placesOf a.target f g.frame, x = ⟨a.savedBytes e.1, some e.2⟩) ↔
          ∃ e ∈ (f.registersToSave a.target).zipIdx, x = ⟨a.savedBytes e.1,
            some (placeOf g.frame (savedAt a.target e.1 e.2).1)⟩ := by
        simp only [placesOf, List.mem_map, exists_exists_and_eq_and]
      have hstored := mem_accesses_saved (x := x) (.inr rfl) hstores
      rw [← List.map_reverse] at hloads
      have hloaded := mem_accesses_saved (x := x) (.inl rfl) hloads
      rw [mem_accesses_of_adds hadds, hplaces]
      simp only [List.mem_reverse] at hloaded
      simp only [List.mem_append, List.mem_cons, List.not_mem_nil, or_false, or_and_right,
        exists_or, exists_eq_left, hstored, hloaded, access?_adjustStack a.target .add
        (by decide), access?_adjustStack a.target .sub (by decide), reduceCtorEq, or_self,
        false_or]
      rfl
    · obtain ⟨entry, -, rfl⟩ := List.mem_map.mp he
      obtain ⟨hpos, hend⟩ := placeOf_bounds hbytes (savedAt a.target entry.1 entry.2).1
      exact ⟨hpos, Int.le_trans hend (Int.ofNat_le.mpr (Nat.le_trans hle hsize))⟩

/-- Save slots in a frame within the limit can be accessed but for unaligned ones on AArch64. -/
theorem encodes_saved_iff {bytes : Nat} {n : Int} (hpos : 0 ≤ n) (hle : n ≤ maxFrameSize) :
    a.Encodes bytes n ↔ (a = .aarch64 → n ≤ 255 ∨ (bytes : Int) ∣ n) := by
  have hmax : (maxFrameSize : Int) = 2047 := rfl
  cases a with
  | riscv32 => exact iff_of_true ⟨by omega, by omega⟩ (by rintro ⟨⟩)
  | aarch64 =>
    simp only [Arch.Encodes, true_implies]
    constructor
    · rintro (⟨-, hnear⟩ | ⟨-, -, hdvd⟩)
      · exact .inl hnear
      · exact .inr hdvd
    · rintro (hnear | hdvd)
      · exact .inl ⟨by omega, hnear⟩
      · rcases Nat.eq_zero_or_pos bytes with rfl | hbytes
        · exact .inl (by omega)
        · exact .inr ⟨hpos, by omega, hdvd⟩

/-- **The offsets of native code with its frame fit exactly if they fitted before** and those of the
save slots do. -/
theorem offsetsFit_insertFrameCode_iff (h : f.insertFrameCode a.target = .ok g) :
    g.OffsetsFit a ↔ f.OffsetsFit a ∧ (a = .aarch64 → ∀ e ∈ placesOf a.target f g.frame,
      e.2 ≤ 255 ∨ (a.savedBytes e.1 : Int) ∣ e.2) := by
  obtain ⟨hmem, hbounds⟩ := accesses_insertFrameCode h
  have hsaved : (∀ e ∈ placesOf a.target f g.frame,
      Access.Fits a ⟨a.savedBytes e.1, some e.2⟩) ↔
        (a = .aarch64 → ∀ e ∈ placesOf a.target f g.frame,
          e.2 ≤ 255 ∨ (a.savedBytes e.1 : Int) ∣ e.2) := by
    refine ⟨fun hfits ha e he => ?_, fun hfits e he => ?_⟩
    · obtain ⟨n, hn, hencodes⟩ := hfits e he
      cases hn
      exact (encodes_saved_iff (hbounds e he).1 (hbounds e he).2).mp hencodes ha
    · exact ⟨e.2, rfl, (encodes_saved_iff (hbounds e he).1 (hbounds e he).2).mpr
        fun ha => hfits ha e he⟩
  rw [← hsaved]
  constructor
  · exact fun hfits => ⟨fun x hx => hfits x ((hmem x).mpr (.inl hx)),
      fun e he => hfits _ ((hmem _).mpr (.inr ⟨e, he, rfl⟩))⟩
  · rintro ⟨hbefore, hsaves⟩ x hx
    rcases (hmem x).mp hx with hx | ⟨e, he, rfl⟩
    · exact hbefore x hx
    · exact hsaves e he

end Function

end Machine

namespace Options

variable {o : Options} {m : Ir.Module} {code : Machine.Module} {f : Function}

/-- **Offsets are settled when code is lowered, and never checked.**  The accesses of allocated code
have the resolved offsets of the lowered places; all offsets of the final code fit exactly if these
do and, on AArch64, those of the save slots, which are near or aligned. -/
theorem offsetsFit_iff (h : o.machineCode m = .ok code) (hf : f ∈ code.functions) :
    ∃ f₀ f₁ f₂ f₃, o.target.Produces f₀ ∧ f₀.legalize o.target = .ok f₁ ∧
      (f₁.selectClasses o.target).allocateRegisters o.target = .ok f₂ ∧
      f₂.selectInstructions o.target = .ok f₃ ∧ f₃.insertFrameCode o.target = .ok f ∧
      (f₂.accesses o.arch).map (·.offset) = f₀.placeOffsets ∧
      (f.OffsetsFit o.arch ↔ f₂.OffsetsFit o.arch ∧ (o.arch = .aarch64 →
        ∀ e ∈ Function.placesOf o.target f₃ f.frame,
          e.2 ≤ 255 ∨ (o.arch.savedBytes e.1 : Int) ∣ e.2)) := by
  obtain ⟨f₀, f₁, f₂, f₃, h₀, h₁, h₂, h₃, h₄⟩ := exists_passes h hf
  refine ⟨f₀, f₁, f₂, f₃, h₀, h₁, h₂, h₃, h₄, ?_, ?_⟩
  · have hshaped := Function.shaped_legalize h₀.shaped h₁
    have huntouched := ((Function.untouched_of_produces h₀).legalize h₁).selectClasses
    rw [Function.offsets_allocateRegisters huntouched hshaped.selectClasses h₂,
      Function.placeOffsets_selectClasses, Function.placeOffsets_legalize h₀.shaped h₁]
  · rw [Function.offsetsFit_insertFrameCode_iff h₄, Function.OffsetsFit, Function.OffsetsFit,
      Function.accesses_selectInstructions h₃]
    rfl

theorem retrying_offsetsFit : ∃ code f₁ f₂, machineCode {} retrying = .ok code ∧
    retryingCode ∈ code.functions ∧
    (Function.selectClasses aarch64 f₁).allocateRegisters aarch64 = .ok f₂ ∧
    f₂.OffsetsFit .aarch64 := by
  obtain ⟨code, hcode, hmem⟩ := machineCode_retrying
  obtain ⟨f₀, f₁, f₂, f₃, -, -, hallocate, -, -, -, hiff⟩ := offsetsFit_iff hcode hmem
  exact ⟨code, f₁, f₂, hcode, hmem, hallocate, (hiff.mp (by decide +kernel)).1⟩

/-- A word that is stored behind an array of 260 bytes. -/
def misaligned : Ir.Module where
  name := "m"
  functions := [{
    name := "f"
    returnType := .void
    parameters := [⟨"p", .int 64 true, false⟩]
    blocks := [{
      name := "entry"
      instructions := [
        .stackAlloc 0 "x" (.array 65 .i32),
        .stackAlloc 1 "y" (.int 64 true),
        .store (.param "p" (.int 64 true)) (.temp 1 (.ptr (.int 64 true))),
        .ret none] }] }]

/-- **Objects of a frame need not be aligned**: 260 is no multiple of the 8 bytes that are stored
there, and too large for an offset that is not scaled. -/
theorem misaligned_offset : ∃ code f, machineCode {} misaligned = .ok code ∧ f ∈ code.functions ∧
    f.accesses .aarch64 = [⟨8, some 260⟩] ∧ ¬f.OffsetsFit .aarch64 := by
  have hrun : (machineCode {} misaligned).map (·.functions.map (·.accesses .aarch64)) =
      .ok [[⟨8, some 260⟩]] := by
    decide +kernel
  obtain ⟨code, hcode, haccesses⟩ := map_eq_ok.mp hrun
  obtain ⟨f, rest, hfunctions, haccess, -⟩ := List.map_eq_cons_iff.mp haccesses
  refine ⟨code, f, hcode, by simp [hfunctions], haccess, ?_⟩
  rw [Function.OffsetsFit, haccess]
  decide

end Options

end Retarget
