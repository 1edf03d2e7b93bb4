import Retarget.Proofs.Convention.Parameters
import Retarget.Proofs.Legality.Outcome
import Retarget.Proofs.Stack.Reserved

/-!
# How wide operands are

What can be encoded depends on the widths of some operands: those of shifted and truncated values,
and of the sources of sign extensions.  They come from the types of the module.  If those are words
(`Ir.Module.WordTyped`), the operands have 1 to 64 bits in lowered code (`sized_of_producesFrom`), and
legalization, which brings in no such operations, keeps to that (`sized_legalize`).
-/

namespace Retarget

open Machine Target

/-! ## Types of the module -/

namespace Ir

/-- An integer of 1 to 64 bits or an address. -/
def Ty.IsWord : Ty → Prop
  | .int bits _ => 1 ≤ bits.toNat ∧ bits.toNat ≤ 64
  | .ptr _ => True
  | _ => False

instance (ty : Ty) : Decidable ty.IsWord := by
  unfold Ty.IsWord
  split <;> infer_instance

/-- The types of a value as an operand: the one stated with it and, for a parameter, those that it is
declared with.  A global and an aggregate parameter stand for their addresses. -/
def Function.operandTypes (f : Function) : Value → List Ty
  | .param name ty =>
    ty :: (f.parameters.filter fun p => p.name == name && !p.ty.isAggregate).map (·.ty)
  | .global .. => []
  | v => [v.ty]

/-- Integer operations and conversions have words for operands and results, and so do indices. -/
def Function.WordTyped (f : Function) (i : Instruction) : Prop :=
  match i with
  | .binary _ op _ _ ty => op.isFloat = false → ty.IsWord
  | .unary _ op operand ty => op = .sext ∨ op = .zext ∨ op = .trunc →
      ty.IsWord ∧ ∀ ty' ∈ f.operandTypes operand, ty'.IsWord
  | .elementPtr _ _ index _ => index.ty.isInteger → ∀ ty' ∈ f.operandTypes index, ty'.IsWord
  | _ => True

instance (f : Function) (i : Instruction) : Decidable (f.WordTyped i) := by
  unfold Function.WordTyped
  split <;> infer_instance

/-- All functions of the module compute with words. -/
def Module.WordTyped (m : Module) : Prop :=
  ∀ f ∈ m.functions, ∀ b ∈ f.blocks, ∀ i ∈ b.instructions, f.WordTyped i

instance (m : Module) : Decidable m.WordTyped :=
  inferInstanceAs (Decidable (∀ f ∈ m.functions, ∀ b ∈ f.blocks, ∀ i ∈ b.instructions, _))

theorem Ty.IsWord.bits {ty : Ty} (h : ty.IsWord) (a : Arch) :
    0 < (Lowering.lowType a.target.pointerBits ty).bits ∧
      (Lowering.lowType a.target.pointerBits ty).bits ≤ 64 := by
  cases ty with
  | int bits isSigned => exact h
  | ptr pointee =>
    show 0 < a.target.pointerBits ∧ a.target.pointerBits ≤ 64
    cases a <;> decide
  | _ => cases h

end Ir

/-! ## Lowered code -/

namespace Lowering

variable {c : Scope} {f : Ir.Function} {s s' : State} {E : Instruction → Prop}

/-- What is known by a name is a parameter of that name, with its type or that of its address. -/
def State.Declares (s : State) (c : Scope) (f : Ir.Function) : Prop :=
  ∀ name id ty, (name, id, ty) ∈ s.params → ∃ p ∈ f.parameters, p.name = name ∧
    (ty = c.target.pointerType ∨ p.ty.isAggregate = false ∧ ty = c.lowType p.ty)

theorem State.Declares.parameters (hs : s.Declares c f) {ps : List Ir.Parameter}
    (hps : ps ⊆ f.parameters) (h : (ps.forM c.lowerParameter).run s = .ok ((), s')) :
    s'.Declares c f := by
  induction ps generalizing s with
  | nil =>
    cases h
    exact hs
  | cons p ps ih =>
    rw [List.forM] at h
    obtain ⟨_, s₁, hfirst, h⟩ := run_bind_eq_ok.mp h
    refine ih ?_ (List.subset_of_cons_subset hps) h
    rcases lowerParameter_notes hfirst with ⟨id, ty, hparams, -, hty⟩ | ⟨slot, hparams, -⟩
    · intro name id' ty' hmem
      rw [hparams] at hmem
      rcases List.mem_cons.mp hmem with heq | hmem
      · cases heq
        exact ⟨p, hps List.mem_cons_self, rfl, hty⟩
      · exact hs name id' ty' hmem
    · rwa [State.Declares, hparams]

/-- All code so far, in the current block and in front of it, is in `E`. -/
structure State.Emitted (s : State) (E : Instruction → Prop) : Prop where
  code : ∀ i ∈ s.code.toList, E i
  function : s.function.All E

theorem State.Emitted.parameters (hs : s.Emitted E) (hE : ∀ i, IsRoutine i → E i)
    (h : Relation.ReflTransGen ParameterStep s s') : s'.Emitted E := by
  induction h with
  | refl => exact hs
  | tail _ hstep ih =>
    cases hstep with
    | store place source =>
      refine ⟨fun i hi => ?_, ih.function⟩
      rw [State.code_append, List.mem_append, List.mem_singleton] at hi
      rcases hi with hi | rfl
      · exact ih.code i hi
      · exact hE _ (isRoutine_generic rfl _)
    | _ => exact ⟨ih.code, ih.function⟩

theorem State.Emitted.blocks {blocks : List Ir.Block} (hs : s.Emitted E)
    (hE : ∀ b ∈ blocks, ∀ i ∈ b.instructions, ∀ j, Emits c s.params i j → E j)
    (h : (c.lowerBlocks blocks).run s = .ok ((), s')) : s'.Emitted E := by
  induction blocks generalizing s with
  | nil =>
    cases h
    exact hs
  | cons b rest ih =>
    rw [Scope.lowerBlocks] at h
    obtain ⟨_, s₁, hbody, h⟩ := run_bind_eq_ok.mp h
    obtain ⟨_, s₂, hclose, h⟩ := run_bind_eq_ok.mp h
    have hgoes : Goes E (fun _ => True) s
        (b.instructions.forM (c.lowerInstruction (rest.head?.map (·.name)))) fun _ => True := by
      refine .forM fun i hi s' hs' => goes_lowerInstruction _ i (fun j hj => ?_) fun _ _ => trivial
      exact hE b List.mem_cons_self i hi j (params_of_evolves hs' ▸ hj)
    have hevolves := (hgoes.ok _ _ hbody).1
    obtain ⟨code, hcode, hnew⟩ := exists_code_of_evolves hevolves
    have hcode₁ : ∀ i ∈ s₁.code.toList, E i := by
      rw [hcode, List.forall_mem_append]
      exact ⟨hs.code, hnew⟩
    have hparams := params_of_evolves hevolves
    cases hclose
    refine ih ⟨by simp, fun i hi => ?_⟩ (fun b hb i hi j hj => ?_) h
    · rw [Machine.Function.instructions, List.flatMap_append, List.mem_append] at hi
      rcases hi with hi | hi
      · refine hs.function i ?_
        rwa [Machine.Function.instructions, ← (function_of_evolves hevolves).2.2]
      · exact hcode₁ i (by simpa using hi)
    · exact hE b (List.mem_cons_of_mem _ hb) i hi j (hparams ▸ hj)

/-- **Lowered code is what the instructions are lowered to**, behind the stores of the parameters. -/
theorem exists_emits_of_lowerFunction {t : Target} {g : Machine.Function}
    (h : lowerFunction t f = .ok g) : ∃ s : State, s.Declares ⟨t, f.name⟩ f ∧
      g.All fun j => IsRoutine j ∨
        ∃ b ∈ f.blocks, ∃ i ∈ b.instructions, Emits ⟨t, f.name⟩ s.params i j := by
  obtain ⟨⟨_, s'⟩, hrun, h⟩ := bind_eq_ok.mp h
  cases h
  obtain ⟨_, s, hparams, hblocks⟩ := run_bind_eq_ok.mp hrun
  have hdeclares : (State.start f).Declares ⟨t, f.name⟩ f := by
    intro name id ty hmem
    cases hmem
  refine ⟨s, hdeclares.parameters (List.Subset.refl _) hparams, ?_⟩
  have hstart : (State.start f).Emitted fun j => IsRoutine j ∨
      ∃ b ∈ f.blocks, ∃ i ∈ b.instructions, Emits ⟨t, f.name⟩ s.params i j :=
    ⟨by simp [State.start], by simp [State.start, Machine.Function.All,
      Machine.Function.instructions]⟩
  refine ((hstart.parameters (fun _ => .inl) (parameterSteps hparams)).blocks
    (fun b hb i hi j hj => .inr ⟨b, hb, i, hi, hj⟩) hblocks).function

end Lowering

/-! ## Operands -/

namespace Machine

variable {a : Arch} {t : Target} {op : GenericOp} {k : Nat} {o o' : Operand} {i j : Instruction}
  {f g : Function}

/-- A register that a value can be put into; a physical one is the view that fits the width. -/
structure Operand.IsDest (t : Target) (o : Operand) : Prop where
  isRegLike : o.isRegLike
  fits : ∀ r, o.kind = .physicalReg r → ∃ root ∈ t.homes, r = t.registers.withWidth root o.size

/-- Operations whose destination decides about their encoding, or that expand to such. -/
def GenericOp.hasDest : GenericOp → Bool
  | .and | .or | .xor | .lsl | .lsr | .cmp | .sext | .zext | .trunc | .loadImm | .mov | .movf => true
  | _ => false

/-- Whether the operation can be encoded with the operand in some position. -/
def GenericOp.Allows (op : GenericOp) (position : Nat) (o : Operand) : Prop :=
  match op, position with
  | .lsl, 0 | .lsr, 0 => o.size ≤ 64
  | .trunc, 0 | .sext, 1 => 0 < o.size
  | .stackAddress, 1 => ∀ n, o.offset? = some n → n = 0
  | _, _ => True

/-- The operand has the width and the kind that the operation asks for in the position. -/
structure Operand.Serves (t : Target) (op : GenericOp) (position : Nat) (o : Operand) : Prop where
  dest : position = 0 → op.hasDest → o.IsDest t
  allowed : op.Allows position o

/-- All operands have the widths and kinds that the operation asks for. -/
def Instruction.Sized (t : Target) (i : Instruction) : Prop :=
  ∀ op, i.generic? = some op → ∀ k o, i.operand? k = some o → o.Serves t op k

/-- The width, the offset and the value of an operand are those from before. -/
structure Operand.Keeps (t : Target) (o o' : Operand) : Prop where
  size : o'.size = o.size
  offset? : o'.offset? = o.offset?
  immediate? : o'.immediate? = o.immediate?
  dest : o.IsDest t → o'.IsDest t

theorem Operand.Keeps.refl (o : Operand) : o.Keeps t o := ⟨rfl, rfl, rfl, id⟩

theorem Operand.Serves.keeps (h : o.Serves t op k) (hkeeps : o.Keeps t o') : o'.Serves t op k := by
  refine ⟨fun hk hop => hkeeps.dest (h.dest hk hop), ?_⟩
  have hallowed := h.allowed
  unfold GenericOp.Allows at hallowed ⊢
  rwa [hkeeps.size, hkeeps.offset?]

theorem Instruction.Sized.keeps (h : i.Sized t) (hop : j.generic? = i.generic?)
    (hoperands : ∀ k o', j.operand? k = some o' → ∃ o, i.operand? k = some o ∧ o.Keeps t o') :
    j.Sized t := by
  intro op hj k o' ho'
  obtain ⟨o, ho, hkeeps⟩ := hoperands k o' ho'
  exact (h op (hop ▸ hj) k o ho).keeps hkeeps

/-! ## Lowered code is sized -/

theorem GenericOp.allows_of_not_isSpecial (h : Lowering.isSpecial op = false) (k : Nat)
    (o : Operand) : op.Allows k o := by
  unfold GenericOp.Allows
  split <;> trivial

end Machine

namespace Lowering

variable {a : Arch} {f : Ir.Function} {s : State} {i : Ir.Instruction} {j : Instruction}
  {g : Machine.Function}

theorem allows_of_isRoutine (h : IsRoutine j) {op : GenericOp} (hop : j.generic? = some op)
    {k : Nat} {o : Operand} (ho : j.operand? k = some o) : op.Allows k o := by
  cases hspecial : isSpecial op with
  | false => exact op.allows_of_not_isSpecial hspecial k o
  | true =>
    obtain ⟨dest, slot, ty, rfl⟩ := h op hop hspecial
    cases hop
    rcases k with _ | _ | k
    · trivial
    · cases ho
      rintro _ ⟨⟩
      rfl
    · trivial

theorem bits_pos_of_operandType (hs : s.Declares ⟨a.target, f.name⟩ f) {v : Ir.Value}
    (hv : ∀ ty ∈ f.operandTypes v, ty.IsWord) {ty : LowType}
    (h : OperandType ⟨a.target, f.name⟩ s.params v ty) : 0 < ty.bits := by
  have hpointer : 0 < a.target.pointerType.bits := by cases a <;> decide
  rcases h with rfl | h
  · exact hpointer
  · cases v with
    | param name stated =>
      obtain ⟨id, hmem⟩ := h
      obtain ⟨p, hp, hname, rfl | ⟨hscalar, rfl⟩⟩ := hs name id ty hmem
      · exact hpointer
      · refine ((hv p.ty ?_).bits a).1
        refine List.mem_cons_of_mem _ (List.mem_map_of_mem (List.mem_filter.mpr ⟨hp, ?_⟩))
        simp [hname, hscalar]
    | global name ty => cases h
    | temp id stated | constant n stated | floatConstant x stated =>
      cases h
      exact ((hv stated List.mem_cons_self).bits a).1

/-- What an instruction on words is lowered to can be encoded with its operands. -/
theorem allows_of_emits (hi : f.WordTyped i) (hs : s.Declares ⟨a.target, f.name⟩ f)
    (h : Emits ⟨a.target, f.name⟩ s.params i j) {op : GenericOp} (hop : j.generic? = some op)
    {k : Nat} {o : Operand} (ho : j.operand? k = some o) : op.Allows k o := by
  cases h with
  | routine hroutine => exact allows_of_isRoutine hroutine hop ho
  | @binary result op' lhs rhs ty reg lhs' rhs' =>
    cases hop
    cases op' with
    | shl | shr =>
      cases k with
      | zero =>
        cases ho
        exact ((hi rfl).bits a).2
      | succ k => trivial
    | _ => exact GenericOp.allows_of_not_isSpecial rfl k o
  | @unary result op' operand ty reg source htype =>
    cases hop
    cases op' with
    | sext =>
      rcases k with _ | _ | k
      · trivial
      · cases ho
        exact bits_pos_of_operandType hs (hi (.inl rfl)).2 htype
      · trivial
    | trunc =>
      cases k with
      | zero =>
        cases ho
        exact ((hi (.inr (.inr rfl))).1.bits a).1
      | succ k => trivial
    | bitcast =>
      refine GenericOp.allows_of_not_isSpecial ?_ k o
      rw [unaryOp]
      split <;> rfl
    | _ => exact GenericOp.allows_of_not_isSpecial rfl k o
  | @extend result base index ty reg narrow hsigned htype =>
    cases hop
    rcases k with _ | _ | k
    · trivial
    · cases ho
      refine bits_pos_of_operandType hs (hi ?_) htype
      cases hty : index.ty with
      | int bits isSigned => rfl
      | _ =>
        rw [hty] at hsigned
        cases hsigned
    · trivial

end Lowering

namespace Machine

variable {a : Arch} {t : Target} {op : GenericOp} {k : Nat} {o o' : Operand} {i j : Instruction}
  {f g : Function} {m : Ir.Module}

theorem Instruction.Plain.isDest {next : Nat} (hi : i.Plain t next) (hop : i.generic? = some op)
    (hdest : op.hasDest) (ho : i.operand? 0 = some o) : o.IsDest t := by
  obtain ⟨op', hcode, -, hsuits⟩ := hi.form
  have hop' : i.generic? = some op' := by rw [Instruction.generic?, hcode]; rfl
  cases hop.symm.trans hop'
  have hhead : i.operands.head? = some o := by rwa [List.head?_eq_getElem?]
  refine ⟨?_, fun r hr => ?_⟩
  · cases op <;> first | exact hsuits o hhead | exact hsuits.1 o hhead | cases hdest
  · obtain ⟨root, hroot, hview⟩ := (hi.operands o (List.mem_of_getElem? ho)).passes r hr
    exact ⟨root, by simp [homes, hroot], hview⟩

theorem Renames.keeps_applyOperand (rs : Renames) (o : Operand) : o.Keeps t (rs.applyOperand o) := by
  have hparts : (rs.applyOperand o).offset? = o.offset? ∧
      (rs.applyOperand o).immediate? = o.immediate? := by
    rw [applyOperand]
    split
    · next reg hkind =>
      cases rs.resolve (.virtualReg reg) <;>
        simp [Operand.offset?, Operand.immediate?, Operand.withKind, Source.kind, hkind]
    · next base offset hkind =>
      simp [Operand.offset?, Operand.immediate?, Operand.setReg, Operand.withKind, hkind]
    · exact ⟨rfl, rfl⟩
  refine ⟨by rw [Operand.size, ty_applyOperand, Operand.size], hparts.1, hparts.2,
    fun h => ⟨?_, ?_⟩⟩
  · rw [isRegLike_applyOperand]
    exact h.isRegLike
  · intro r hr
    rw [Operand.size, ty_applyOperand]
    refine h.fits r ?_
    rw [applyOperand] at hr
    split at hr
    · next reg hkind =>
      cases hsource : rs.resolve (.virtualReg reg) <;>
        simp [hsource, Operand.withKind, Source.kind] at hr
    · next base offset hkind => simp [Operand.setReg, Operand.withKind, hkind] at hr
    · exact hr

/-- **Lowered code is sized where the module computes with words.** -/
theorem Function.sized_of_producesFrom (h : a.target.ProducesFrom m f) (hm : m.WordTyped) :
    f.All (·.Sized a.target) := by
  obtain ⟨source, hsource, g, hlower, hf⟩ := h.exists_lowerFunction
  have hg : g.All (·.Sized a.target) := by
    obtain ⟨s, hdeclares, hemits⟩ := Lowering.exists_emits_of_lowerFunction hlower
    intro j hj op hop k o ho
    refine ⟨?_, ?_⟩
    · rintro rfl hdest
      exact (Lowering.plain_lowerFunction hlower j hj).isDest hop hdest ho
    · rcases hemits j hj with hroutine | ⟨b, hb, i, hi, hemit⟩
      · exact Lowering.allows_of_isRoutine hroutine hop ho
      · exact Lowering.allows_of_emits (hm source hsource b hb i hi) hdeclares hemit hop ho
  rcases hf with rfl | rfl
  · exact hg
  · refine (hg.simplify fun rs i hi => hi.keeps rfl fun k o' ho' => ?_).dropDead
    rw [Instruction.operand?, Renames.apply, Instruction.operands_withOperands,
      List.getElem?_map] at ho'
    obtain ⟨o, ho, rfl⟩ := Option.map_eq_some_iff.mp ho'
    exact ⟨o, ho, rs.keeps_applyOperand o⟩

/-! ## Legalization -/

theorem Operand.isDest_virtualReg (r : RegId) (ty : LowType) : (virtualReg r ty).IsDest t :=
  ⟨rfl, by rintro _ ⟨⟩⟩

/-- Where no width counts, the destination is all that does. -/
theorem Instruction.sized_of_not_isSpecial (op : GenericOp) (hop : i.generic? = some op)
    (hspecial : Lowering.isSpecial op = false)
    (hdest : op.hasDest → ∀ o, i.operand? 0 = some o → o.IsDest t) : i.Sized t := by
  intro op' hop' k o ho
  cases hop.symm.trans hop'
  refine ⟨?_, op.allows_of_not_isSpecial hspecial k o⟩
  rintro rfl hhas
  exact hdest hhas o ho

theorem Instruction.Sized.isDest (hi : i.Sized t) (hop : i.generic? = some op) (hdest : op.hasDest)
    {rest : List Operand} (hoperands : i.operands = o :: rest) : o.IsDest t :=
  (hi op hop 0 o (by rw [operand?, hoperands]; rfl)).dest rfl hdest

end Machine

namespace Target

variable {a : Arch} {next used : Nat} {i : Instruction} {new : List Instruction}

/-- **What an expansion puts in is sized.** -/
theorem Rewrite.sized {t : Target} (h : Rewrite a next i used new) (hi : i.Sized t) :
    ∀ j ∈ new, j.Sized t := by
  have hload : ∀ dest imm : Operand, dest.IsDest t → (loadImmediate dest imm).Sized t := by
    refine fun dest imm hdest => Instruction.sized_of_not_isSpecial .loadImm rfl rfl ?_
    rintro - _ ⟨⟩
    exact hdest
  have hcompare : ∀ (r : Relation) (d x y : Operand), d.IsDest t →
      (Riscv.compare r d x y).Sized t := by
    refine fun r d x y hdest => Instruction.sized_of_not_isSpecial .cmp rfl rfl ?_
    rintro - _ ⟨⟩
    exact hdest
  have hxor : ∀ d x y : Operand, d.IsDest t → (Riscv.exclusiveOr d x y).Sized t := by
    refine fun d x y hdest => Instruction.sized_of_not_isSpecial .xor rfl rfl ?_
    rintro - _ ⟨⟩
    exact hdest
  have harithmetic : ∀ (op : GenericOp) (os : List Operand), Lowering.isSpecial op = false →
      op.hasDest = false → (Instruction.generic op os).markExpanded.Sized t := by
    refine fun op os hspecial hnone => Instruction.sized_of_not_isSpecial op rfl hspecial ?_
    rw [hnone]
    rintro ⟨⟩
  cases h with
  | @materialize op k imm hop huse hk himm =>
    simp only [List.forall_mem_cons, List.not_mem_nil, false_implies, implies_true, and_true]
    refine ⟨hload _ _ (Operand.isDest_virtualReg _ _), fun op' hop' n o ho => ?_⟩
    cases hop.symm.trans hop'
    rw [Instruction.operand?, Instruction.operands_replaceOperand, List.getElem?_set] at ho
    split at ho
    · next heq =>
      subst heq
      split at ho
      · cases ho
        rcases huse with rfl | ⟨hop, hpos⟩
        · refine ⟨fun _ hdest => ?_, trivial⟩
          cases hdest
        · refine ⟨fun hzero => absurd hzero (Nat.ne_of_gt hpos), ?_⟩
          unfold GenericOp.Allows
          split <;> simp_all [GenericOp.isThreeAddress]
      · cases ho
    · exact hi op hop n o ho
  | @convert op dest source value folded hop hconversion hoperands hvalue hfolded =>
    rw [List.forall_mem_singleton]
    refine hload _ _ (hi.isDest hop ?_ hoperands)
    cases op <;> first | rfl | cases hconversion
  | @remainder op division dest lhs rhs ha hop hdivision hoperands hlhs =>
    simp only [List.forall_mem_cons, List.not_mem_nil, false_implies, implies_true, and_true]
    refine ⟨?_, harithmetic _ _ rfl rfl, harithmetic _ _ rfl rfl⟩
    rcases hdivision with ⟨-, rfl⟩ | ⟨-, rfl⟩ <;> exact harithmetic _ _ rfl rfl
  | @flip op flipped imm value negated ha hop hflipped hfirst hk hvalue hnegated hfits =>
    rw [List.forall_mem_singleton]
    refine Instruction.sized_of_not_isSpecial flipped rfl ?_ ?_
    · rcases hflipped with ⟨-, rfl⟩ | ⟨-, rfl⟩ <;> rfl
    · rcases hflipped with ⟨-, rfl⟩ | ⟨-, rfl⟩ <;> rintro ⟨⟩
  | address ha hop hoperands hsymbol =>
    simp only [List.forall_mem_cons, List.not_mem_nil, false_implies, implies_true, and_true]
    refine ⟨?_, harithmetic _ _ rfl rfl⟩
    rintro op ⟨⟩
  | swap ha hop hrelation hswap hoperands hlhs =>
    rw [List.forall_mem_singleton]
    exact hcompare _ _ _ _ (hi.isDest hop rfl hoperands)
  | notLess ha hop hrelation hoperands hlhs =>
    simp only [List.forall_mem_cons, List.not_mem_nil, false_implies, implies_true, and_true]
    exact ⟨hcompare _ _ _ _ (Operand.isDest_virtualReg _ _),
      hxor _ _ _ (hi.isDest hop rfl hoperands)⟩
  | equal ha hop hrelation hoperands hlhs | different ha hop hrelation hoperands hlhs =>
    simp only [List.forall_mem_cons, List.not_mem_nil, false_implies, implies_true, and_true]
    exact ⟨hxor _ _ _ (Operand.isDest_virtualReg _ _),
      hcompare _ _ _ _ (hi.isDest hop rfl hoperands)⟩

end Target

namespace Machine.Function

variable {a : Arch} {t : Target} {f g : Function}

theorem sized_legalize (hf : f.All (·.Sized t)) (h : f.legalize a.target = .ok g) :
    g.All (·.Sized t) := by
  refine .legalize Target.Rewrite.sized (fun _ _ _ => ?_) hf h
  exact Instruction.sized_of_not_isSpecial .zextLoad rfl rfl nofun

end Machine.Function

end Retarget
