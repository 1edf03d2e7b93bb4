import Retarget.Proofs.Encoding.Widths
import Retarget.Proofs.Lowering.Placement

/-!
# Addresses of members and elements

The code for an address computation leaves, in the register of the result, the address that the
source stands for plus the offset of a member, or plus as many element sizes as the index says
(`leavesAddress_elementPtr`).  The number that an index stands for is a constant, or what is in its
register, read as its type says; both come to the same address, except that one constant cannot be
folded (`element_addresses`).
-/

namespace Retarget

open Machine

/-! ## Numbers of bytes as words -/

namespace Word

theorem ofInt_signed {p : Nat} (hp : p ≤ 64) (v : Int) :
    BitVec.ofInt p (signed 64 v) = BitVec.ofInt p v := by
  have hword : BitVec.ofInt 64 (signed 64 v) = BitVec.ofInt 64 v := by
    apply BitVec.eq_of_toInt_eq
    rw [BitVec.toInt_ofInt, BitVec.toInt_ofInt]
    exact Int.bmod_bmod
  rw [← setWidth_ofInt hp, hword, setWidth_ofInt hp]

theorem ofInt_mul_signed {p : Nat} (hp : p ≤ 64) (n v : Int) :
    BitVec.ofInt p (n * signed 64 v) = BitVec.ofInt p (n * v) := by
  rw [BitVec.ofInt_mul, ofInt_signed hp, BitVec.ofInt_mul]

end Word

/-- The number that bits are, with a sign or without. -/
def Machine.Bits.number (isSigned : Bool) (b : Bits) : Int :=
  if isSigned then b.value.toInt else b.value.toNat

theorem Machine.Bits.ofInt_number (isSigned : Bool) {n : Nat} (x : BitVec n) :
    BitVec.ofInt n (number isSigned ⟨n, x⟩) = x := by
  rw [number]
  split
  · exact BitVec.ofInt_toInt
  · rw [BitVec.ofInt_natCast, BitVec.ofNat_toNat, BitVec.setWidth_eq]

namespace Lowering

variable {M : Interpretation} {c : Scope} {s s' s₁ s₂ : State} {v source index : Ir.Value}
  {o dest base : Operand} {g : Machine.Function} {σ σ₁ : Machine.State M} {f : Ir.Function}
  {result : Ir.TempId} {n offset : Int} {code : List Instruction}

/-! ## What an index and an offset stand for -/

/-- The number that an index stands for.  What is in a register is at most as wide as an address and
read as its type says. -/
def State.number? (c : Scope) (s : State) (σ : Machine.State M) : Ir.Value → Option Int
  | .constant n _ => some n.toInt
  | v => (s.bits? c σ v).bind fun b =>
    if b.width ≤ M.pointerBits then some (b.number v.ty.isSigned) else none

theorem Spares.number? {σ' : Machine.State M} (h : Spares s s₁ σ σ') (hs : Tracked c.target s)
    (hle : s.Continues s₁) (hle' : s₁.Continues s') (v : Ir.Value) :
    s'.number? c σ' v = s'.number? c σ v := by
  cases v with
  | constant n ty => rfl
  | _ => simp only [State.number?, h.bits? hs hle hle']

/-- The offset of the member of a type. -/
def memberOffset? (pointerBytes : Nat) (ty : Ir.Ty) (field : Int) : Option Nat :=
  if 0 ≤ field then (ty.fieldOffset? pointerBytes field.toNat).toOption.join else none

/-- The number of bytes that an address computation adds: the offset of a member, or the index times
the size of an element. -/
def State.byteOffset? (c : Scope) (s : State) (σ : Machine.State M) (source index : Ir.Value) :
    Option Int :=
  if (Scope.pointee source).isStruct then
    match index with
    | .constant n _ => 
      (memberOffset? c.target.pointerBytes (Scope.pointee source) n.toInt).map Nat.cast
    | _ => none
  else do
    let bytes ← ((Scope.stride (Scope.pointee source)).size c.target.pointerBytes).toOption
    return (← s.number? c σ index) * bytes

theorem State.byteOffset?_member (h : (Scope.pointee source).isStruct) (s : State)
    (σ : Machine.State M) (n : Int64) (ty : Ir.Ty) :
    s.byteOffset? c σ source (.constant n ty) =
      (memberOffset? c.target.pointerBytes (Scope.pointee source) n.toInt).map Nat.cast := by
  simp only [State.byteOffset?, h, if_true]

theorem State.byteOffset?_element (h : ¬(Scope.pointee source).isStruct) {bytes : Nat}
    (hsize : (Scope.stride (Scope.pointee source)).size c.target.pointerBytes = .ok bytes)
    (s : State) (σ : Machine.State M) (index : Ir.Value) :
    s.byteOffset? c σ source index = (s.number? c σ index).map (· * (bytes : Int)) := by
  rw [State.byteOffset?.eq_def, if_neg h, hsize]
  show Option.bind _ _ = _
  rw [Option.map_eq_bind]
  rfl

/-! ## The index -/

theorem produce_add {n : Nat} (m : Memory M.pointerBits) (x y : BitVec n) :
    produce .add none n m [.bits ⟨n, x⟩, .bits ⟨n, y⟩] = some (x + y) := by
  show some (x.setWidth n + y.setWidth n) = _
  rw [BitVec.setWidth_eq, BitVec.setWidth_eq]

theorem produce_mul {n : Nat} (m : Memory M.pointerBits) (x y : BitVec n) :
    produce .mul none n m [.bits ⟨n, x⟩, .bits ⟨n, y⟩] = some (x * y) := by
  show some (x.setWidth n * y.setWidth n) = _
  rw [BitVec.setWidth_eq, BitVec.setWidth_eq]

theorem eval_offset (hM : M.pointerBits = c.target.pointerBits) (frame : Frame)
    (σ : Machine.State M) (n : Int) :
    (Operand.immediate n c.target.offsetType).eval frame σ =
      some (.bits ⟨M.pointerBits, BitVec.ofInt _ n⟩) := by
  rw [Operand.eval_immediate (v := n) rfl]
  exact congrArg (fun p => some (Arg.bits ⟨p, BitVec.ofInt p n⟩)) hM.symm

theorem width_of_eval {frame : Frame} {b : Bits} (h : o.eval frame σ = some (.bits b)) :
    b.width = o.size := by
  rw [Operand.eval] at h
  split at h
  case h_4 => cases h; rfl
  case h_1 | h_2 | h_3 =>
    obtain ⟨w, -, h⟩ := Option.map_eq_some_iff.mp h
    cases h
    rfl
  case h_5 | h_6 =>
    obtain ⟨a, -, h⟩ := Option.map_eq_some_iff.mp h
    cases h
  all_goals cases h

/-- The number that is not a constant is in bits that are no wider than an address. -/
theorem State.bits?_of_number? (hv : ∀ n ty, v ≠ .constant n ty) {i : Int}
    (h : s.number? c σ v = some i) :
    ∃ b, s.bits? c σ v = some b ∧ b.width ≤ M.pointerBits ∧ b.number v.ty.isSigned = i := by
  have hbits : (s.bits? c σ v).bind (fun b =>
      if b.width ≤ M.pointerBits then some (b.number v.ty.isSigned) else none) = some i := by
    cases v with
    | constant n ty => exact absurd rfl (hv n ty)
    | _ => exact h
  obtain ⟨b, hb, hi⟩ := Option.bind_eq_some_iff.mp hbits
  split at hi
  · next hwidth => exact ⟨b, hb, hwidth, Option.some.inj hi⟩
  · cases hi

/-- Lowering goes on, and the code that it emits leaves `n` times what the index stands for in the
operand, as a word of the width of an address, and changes scratch registers only. -/
structure Counts (c : Scope) (s s₁ : State) (index : Ir.Value) (n : Int) (o : Operand)
    (code : List Instruction) : Prop where
  code_eq : s₁.code.toList = s.code.toList ++ code
  continues : s.Continues s₁
  run : ∀ {M : Interpretation} {g : Machine.Function}, M.pointerBits = c.target.pointerBits →
    s.Framed g → ∀ (σ : Machine.State M) s' i, s₁.Continues s' →
      s'.number? c σ index = some i →
      ∃ σ₁, g.runCode code σ = some (none, σ₁) ∧ Spares s s₁ σ σ₁ ∧
        o.eval g.frame σ₁ = some (.bits ⟨M.pointerBits, BitVec.ofInt _ (i * n)⟩)

theorem counts_wideIndex (hs : Tracked c.target s) (hindex : ∀ n ty, index ≠ .constant n ty)
    (h : (c.wideIndex index).run s = .ok (o, s₁)) : ∃ code, Counts c s s₁ index 1 o code := by
  obtain ⟨narrow, s₂, hoperand, h⟩ := run_bind_eq_ok.mp h
  obtain ⟨code, hevaluates⟩ := evaluates_operand hs hoperand
  obtain ⟨hs₂, -⟩ := isValue_operand hs hoperand
  have hcode := hevaluates.code_eq
  have hle := hevaluates.continues
  split at h
  · obtain ⟨wide, s₃, hfresh, h⟩ := run_bind_eq_ok.mp h
    obtain ⟨rfl, rfl⟩ := run_freshReg_eq_ok hfresh
    obtain ⟨_, s₄, hemit, h⟩ := run_bind_eq_ok.mp h
    rw [run_emit] at hemit
    cases hemit
    cases h
    have hle' := (State.Continues.numbered s₂).trans (.append s₂.numbered
      [.generic (if index.ty.isSigned then .sext else .zext)
        [.virtualReg s₂.next c.target.offsetType, narrow]])
    refine ⟨code ++ [.generic (if index.ty.isSigned then .sext else .zext)
      [.virtualReg s₂.next c.target.offsetType, narrow]], ?_, hle.trans hle',
      fun {M g} hM hg σ s' i hs' hi => ?_⟩
    · rw [State.code_append, ← List.append_assoc, ← hcode]
      rfl
    · obtain ⟨b, hb, -, rfl⟩ := State.bits?_of_number? hindex hi
      obtain ⟨σ₁, hrun, hspares, heval⟩ := hevaluates.eval hs hM hg (hle'.trans hs') hb
      refine exists_run_emitted hs₂ hle hrun hspares ?_ hM.symm
        (mapM₁_eq_some.mpr ⟨_, heval, rfl⟩) ?_
      · split <;> rfl
      · rw [Int.mul_one, Bits.number]
        split
        · rfl
        · rw [BitVec.ofInt_natCast, BitVec.ofNat_toNat]
          rfl
  · next hwide =>
    cases h
    refine ⟨code, hcode, hle, fun {M g} hM hg σ s' i hs' hi => ?_⟩
    obtain ⟨⟨width, x⟩, hb, hwidth, rfl⟩ := State.bits?_of_number? hindex hi
    obtain ⟨σ₁, hrun, hspares, heval⟩ := hevaluates.eval hs hM hg hs' hb
    refine ⟨σ₁, hrun, hspares, ?_⟩
    have hsize : width = M.pointerBits := by
      have hsize : width = o.size := width_of_eval heval
      have hle : o.size ≤ M.pointerBits := hsize ▸ hwidth
      rw [hM] at hle ⊢
      exact hsize.trans (Nat.le_antisymm hle (Nat.le_of_not_lt hwide))
    subst hsize
    rw [heval, Int.mul_one, Bits.ofInt_number]

/-- The index is multiplied with the size of an element, unless that is one. -/
theorem counts_scaledIndex (hs : Tracked c.target s) (hindex : ∀ n ty, index ≠ .constant n ty)
    (h : (c.scaledIndex index n).run s = .ok (o, s₁)) : ∃ code, Counts c s s₁ index n o code := by
  obtain ⟨wide, s₂, hindexed, h⟩ := run_bind_eq_ok.mp h
  obtain ⟨code, hcode, hle, hrun⟩ := counts_wideIndex hs hindex hindexed
  obtain ⟨hs₂, -⟩ := (leads_wideIndex hs index).ok _ _ hindexed
  split at h
  · next hone =>
    cases h
    subst hone
    exact ⟨code, hcode, hle, hrun⟩
  · obtain ⟨product, s₃, hfresh, h⟩ := run_bind_eq_ok.mp h
    obtain ⟨rfl, rfl⟩ := run_freshReg_eq_ok hfresh
    obtain ⟨_, s₄, hemit, h⟩ := run_bind_eq_ok.mp h
    rw [run_emit] at hemit
    cases hemit
    cases h
    have hle' := (State.Continues.numbered s₂).trans (.append s₂.numbered
      [.generic .mul [.virtualReg s₂.next c.target.offsetType, wide,
        .immediate n c.target.offsetType]])
    refine ⟨code ++ [.generic .mul [.virtualReg s₂.next c.target.offsetType, wide,
      .immediate n c.target.offsetType]], ?_, hle.trans hle',
      fun {M g} hM hg σ s' i hs' hi => ?_⟩
    · rw [State.code_append, ← List.append_assoc, ← hcode]
      rfl
    · obtain ⟨σ₁, hrun, hspares, heval⟩ := hrun hM hg σ s' i (hle'.trans hs') hi
      refine exists_run_emitted hs₂ hle hrun hspares rfl hM.symm
        (mapM₂_eq_some.mpr ⟨_, _, heval, eval_offset hM g.frame σ₁ n, rfl⟩) ?_
      rw [Int.mul_one, produce_mul, BitVec.ofInt_mul]

/-! ## The address -/

/-- From every run in which the source stands for an address and the index for an offset, the code
that is emitted leaves their sum, modulo the number of addresses, in the register of the result, and
changes scratch registers besides. -/
structure LeavesAddress (c : Scope) (s s' : State) (result : Ir.TempId) (source index : Ir.Value)
    (r : RegId) (code : List Instruction) : Prop where
  code_eq : s'.code.toList = s.code.toList ++ code
  register : s'.temps.lookup result = some r
  run : ∀ {M : Interpretation} {g : Machine.Function}, M.pointerBits = c.target.pointerBits →
    s.Framed g → ∀ (σ : Machine.State M) a offset,
      s'.bits? c σ source = some ⟨M.pointerBits, a⟩ →
      s'.byteOffset? c σ source index = some offset →
      ∃ σ', g.runCode code σ = some (none, σ') ∧
        σ'.regs r = some ⟨M.pointerBits, a + BitVec.ofInt M.pointerBits offset⟩ ∧
        Agree (fun x => x ≠ r ∧ ¬ s.Scratch s' x) σ σ'

theorem leavesAddress_of_last {r : RegId} {op : GenericOp} {sources : List Operand}
    (hcode : s₂.code.toList = s.code.toList ++ code) (hr : s₂.temps.lookup result = some r)
    (hop : op.defines)
    (hrun : ∀ {M : Interpretation} {g : Machine.Function}, M.pointerBits = c.target.pointerBits →
      s.Framed g → ∀ (σ : Machine.State M) s' a offset, s₂.Continues s' →
        s'.bits? c σ source = some ⟨M.pointerBits, a⟩ →
        s'.byteOffset? c σ source index = some offset →
        ∃ σ₁ args, g.runCode code σ = some (none, σ₁) ∧ Spares s s₂ σ σ₁ ∧
          sources.mapM (·.eval g.frame σ₁) = some args ∧
          produce op none M.pointerBits σ₁.memory args =
            some (a + BitVec.ofInt M.pointerBits offset)) :
    LeavesAddress c s (s₂.append [.generic op (.virtualReg r c.target.pointerType :: sources)])
      result source index r
      (code ++ [.generic op (.virtualReg r c.target.pointerType :: sources)]) where
  code_eq := by rw [State.code_append, hcode, List.append_assoc]
  register := hr
  run {M g} hM hg σ a offset ha hoffset := by
    have hle := State.Continues.append s₂
      [.generic op (.virtualReg r c.target.pointerType :: sources)]
    obtain ⟨σ₁, args, hrun, hspares, hargs, hw⟩ := hrun hM hg σ _ a offset hle ha hoffset
    have hwrite : Agree (· ≠ r) σ₁ (σ₁.write r ⟨M.pointerBits, a + BitVec.ofInt _ offset⟩) :=
      .write (not_not_intro rfl) σ₁ _
    exact ⟨_, (runCode_append_eq hrun).trans (runCode_emitted hop hM.symm r hargs hw), if_pos rfl,
      (Agree.trans (hspares.mono hle) hwrite).mono fun x hx => hx.symm⟩

/-- A constant offset is added, unless it is zero. -/
theorem leavesAddress_emitOffset {r : RegId} (hs : Tracked c.target s)
    (hbase : Evaluates c s s₂ source base code) (hr : s₂.temps.lookup result = some r)
    (hoffset : ∀ {M : Interpretation} (σ : Machine.State M) (s' : State) k,
      M.pointerBits = c.target.pointerBits → s'.byteOffset? c σ source index = some k →
      BitVec.ofInt M.pointerBits offset = BitVec.ofInt M.pointerBits k)
    (h : (c.emitOffset (.virtualReg r c.target.pointerType) base offset).run s₂ = .ok ((), s')) :
    ∃ code, LeavesAddress c s s' result source index r code := by
  rw [Scope.emitOffset] at h
  split at h
  · next hzero =>
    rw [run_emit] at h
    cases h
    refine ⟨_, leavesAddress_of_last hbase.code_eq hr rfl fun {M g} hM hg σ s' a k hs' ha hk => ?_⟩
    obtain ⟨σ₁, hrun, hspares, heval⟩ := hbase.eval hs hM hg hs' ha
    refine ⟨σ₁, _, hrun, hspares, mapM₁_eq_some.mpr ⟨_, heval, rfl⟩, ?_⟩
    rw [← hoffset σ s' k hM hk, hzero]
    show some (a.setWidth _) = some (a + 0#_)
    rw [BitVec.setWidth_eq, BitVec.add_zero]
  · rw [run_emit] at h
    cases h
    refine ⟨_, leavesAddress_of_last hbase.code_eq hr rfl fun {M g} hM hg σ s' a k hs' ha hk => ?_⟩
    obtain ⟨σ₁, hrun, hspares, heval⟩ := hbase.eval hs hM hg hs' ha
    refine ⟨σ₁, _, hrun, hspares,
      mapM₂_eq_some.mpr ⟨_, _, heval, eval_offset hM g.frame σ₁ offset, rfl⟩, ?_⟩
    rw [produce_add, hoffset σ s' k hM hk]

theorem low_of_nonneg {n : Int64} (h : 0 ≤ n.toInt) : Word.low 64 n.toInt = n.toInt.toNat := by
  have hlt := (Word.isSigned_toInt n).lt_two_pow (Nat.le_refl 64)
  rw [Word.low, Int.emod_eq_of_lt h (by exact_mod_cast hlt)]

/-- **Address computation is right**: the code leaves the address that the source stands for plus
the offset of the member, or plus the index times the size of an element. -/
theorem leavesAddress_elementPtr (hs : Tracked c.target s) (hp : c.target.pointerBits ≤ 64)
    (h : (c.lowerElementPtr result source index).run s = .ok ((), s')) :
    ∃ r code, LeavesAddress c s s' result source index r code := by
  obtain ⟨base, s₁, hsource, hrest⟩ := run_bind_eq_ok.mp h
  obtain ⟨code, hbase⟩ := evaluates_operand hs hsource
  obtain ⟨hs₁, hvalue⟩ := isValue_operand hs hsource
  obtain ⟨dest, s₂, hdest, hrest⟩ := run_bind_eq_ok.mp hrest
  obtain ⟨hle, hcode, r, rfl, hr⟩ := State.Continues.tempReg hdest
  obtain ⟨hs₂, -, -⟩ := (leads_tempReg hs₁ result _).ok _ _ hdest
  replace hbase := hbase.mono hle hcode
  refine ⟨r, ?_⟩
  clear h
  split at hrest
  · next hstruct =>
    split at hrest
    · next field ty =>
      obtain ⟨offset?, s₃, hchecked, hrest⟩ := run_bind_eq_ok.mp hrest
      obtain ⟨hmember, rfl⟩ := run_check_eq_ok.mp hchecked
      cases offset? with
      | none => cases hrest
      | some bytes =>
        refine leavesAddress_emitOffset hs hbase hr (fun {M} σ s' k hM hk => ?_) hrest
        rw [Word.ofInt_signed (hM ▸ hp)]
        rw [State.byteOffset?_member hstruct] at hk
        obtain ⟨n, hn, rfl⟩ := Option.map_eq_some_iff.mp hk
        rw [memberOffset?] at hn
        split at hn
        · next hnonneg =>
          rw [← low_of_nonneg hnonneg, hmember] at hn
          cases hn
          rfl
        · cases hn
    · cases hrest
  · next hstruct =>
    obtain ⟨bytes, s₃, hchecked, hsized⟩ := run_bind_eq_ok.mp hrest
    obtain ⟨hsize, rfl⟩ := run_size_eq_ok.mp hchecked
    clear hrest
    split at hsized
    · next n ty =>
      obtain ⟨offset, s₄, hchecked, hrest⟩ := run_bind_eq_ok.mp hsized
      obtain ⟨hfit, rfl⟩ := run_check_eq_ok.mp hchecked
      refine leavesAddress_emitOffset hs hbase hr (fun {M} σ s' k hM hk => ?_) hrest
      rw [State.byteOffset?_element hstruct hsize] at hk
      cases hk
      rw [Word.fitSigned] at hfit
      split at hfit
      · cases hfit
        rw [Word.ofInt_mul_signed (hM ▸ hp)]
      · cases hfit
    · next hindex =>
      obtain ⟨scaled, s₄, hscaled, hrest⟩ := run_bind_eq_ok.mp hsized
      obtain ⟨code', hcounts⟩ := counts_scaledIndex hs₂ hindex hscaled
      rw [run_emit] at hrest
      cases hrest
      have hcode : s₄.code.toList = s.code.toList ++ (code ++ code') := by
        rw [hcounts.code_eq, hbase.code_eq, List.append_assoc]
      refine ⟨_, leavesAddress_of_last hcode (hcounts.continues.temps _ _ hr) rfl
        fun {M g} hM hg σ s' a k hs' ha hk => ?_⟩
      rw [State.byteOffset?_element hstruct hsize] at hk
      obtain ⟨i, hi, rfl⟩ := Option.map_eq_some_iff.mp hk
      obtain ⟨σ₁, hrun, hspares, heval⟩ :=
        hbase.eval hs hM hg (hcounts.continues.trans hs') ha
      rw [← hspares.number? hs hbase.continues (hcounts.continues.trans hs')] at hi
      obtain ⟨σ₂, hrun', hspares', heval'⟩ :=
        hcounts.run hM (hbase.continues.framed hg) σ₁ s' i hs' hi
      refine ⟨σ₂, _, (runCode_append_eq hrun).trans hrun',
        hspares.trans hspares' hbase.continues hcounts.continues,
        mapM₂_eq_some.mpr ⟨_, _, (hspares'.eval (hvalue.mono hle.next) _).trans heval, heval', rfl⟩,
        ?_⟩
      rw [produce_add, Word.ofInt_mul_signed (hM ▸ hp)]

/-! ## Constant indices -/

/-- A register holds the number of the constant, which is one of their type. -/
structure State.HoldsConstant (c : Scope) (s : State) (σ : Machine.State M) (v : Ir.Value)
    (n : Int64) (ty : Ir.Ty) : Prop where
  register : ∀ m ty', v ≠ .constant m ty'
  type : v.ty = ty
  narrow : (c.lowType ty).bits ≤ M.pointerBits
  fits : if ty.isSigned then -2 ^ (c.lowType ty).bits ≤ n.toInt * 2 ∧
      n.toInt * 2 < 2 ^ (c.lowType ty).bits
    else 0 ≤ n.toInt ∧ n.toInt < 2 ^ (c.lowType ty).bits
  bits : s.bits? c σ v = some ⟨(c.lowType ty).bits, BitVec.ofInt _ n.toInt⟩

theorem State.HoldsConstant.number? {k : Int64} {ty : Ir.Ty} (h : s.HoldsConstant c σ v k ty) :
    s.number? c σ v = some k.toInt := by
  have hnumber : Bits.number ty.isSigned ⟨(c.lowType ty).bits, BitVec.ofInt _ k.toInt⟩ =
      k.toInt := by
    have hfits := h.fits
    rw [Bits.number]
    split
    · next hsigned =>
      rw [if_pos hsigned] at hfits
      rw [BitVec.toInt_ofInt]
      exact Int.bmod_eq_of_le_mul_two (by exact_mod_cast hfits.1) (by exact_mod_cast hfits.2)
    · next hsigned =>
      rw [if_neg hsigned] at hfits
      rw [BitVec.toNat_ofInt, Int.emod_eq_of_lt hfits.1 (by exact_mod_cast hfits.2)]
      exact Int.toNat_of_nonneg hfits.1
  have hbits : s.number? c σ v = (s.bits? c σ v).bind fun b =>
      if b.width ≤ M.pointerBits then some (b.number v.ty.isSigned) else none := by
    cases v with
    | constant m ty' => exact absurd rfl (h.register m ty')
    | _ => rfl
  rw [hbits, h.bits, Option.bind_some, if_pos h.narrow, h.type, hnumber]

theorem size_lt {ty : Ir.Ty} {pointerBytes bytes : Nat} (hp : pointerBytes < 2 ^ 64)
    (h : ty.size pointerBytes = .ok bytes) : bytes < 2 ^ 64 := by
  have hfit : ∀ {m : Nat}, Word.fit 64 m = .ok bytes → bytes < 2 ^ 64 := by
    intro m hm
    rw [Word.fit] at hm
    split at hm
    · next hlt =>
      cases hm
      exact hlt
    · cases hm
  have hsmall : ∀ bits : UInt8, (bits.toNat + 7) / 8 < 2 ^ 64 := fun bits =>
    Nat.lt_of_le_of_lt (Nat.div_le_self _ _) (by have := bits.toNat_lt; omega)
  cases ty with
  | void =>
    cases h
    decide
  | int bits isSigned | float bits =>
    cases h
    exact hsmall bits
  | ptr pointee =>
    cases h
    exact hp
  | array count element =>
    obtain ⟨m, -, h⟩ := bind_eq_ok.mp h
    exact hfit h
  | struct name fields =>
    cases fields with
    | nil =>
      cases h
      decide
    | cons field fields =>
      obtain ⟨m, -, h⟩ := bind_eq_ok.mp h
      obtain ⟨k, -, h⟩ := bind_eq_ok.mp h
      exact hfit h

/-- The product with a size that is read as a signed number fits where the product does, except for
the largest size that a signed number can be the negative of. -/
theorem fitSigned_mul_signed {n : Int} {bytes : Nat} (hbytes : bytes < 2 ^ 64)
    (hfits : Word.IsSigned (n * bytes)) :
    (∃ o, Word.fitSigned (n * Word.signed 64 bytes) = .ok o) ↔ ¬(n = -1 ∧ bytes = 2 ^ 63) := by
  have hok : (∃ o, Word.fitSigned (n * Word.signed 64 bytes) = .ok o) ↔
      Word.IsSigned (n * Word.signed 64 bytes) := by
    rw [Word.fitSigned]
    split
    · next h => exact ⟨fun _ => h, fun _ => ⟨_, rfl⟩⟩
    · next h =>
      refine ⟨fun hok => ?_, fun h' => absurd h' h⟩
      obtain ⟨o, ho⟩ := hok
      cases ho
  rw [hok]
  rcases Nat.lt_or_ge bytes (2 ^ 63) with hsmall | hlarge
  · have hsigned : Word.signed 64 bytes = bytes :=
      Int.bmod_eq_of_le_mul_two (by omega) (by push_cast; omega)
    rw [hsigned]
    exact ⟨fun _ hlargest => Nat.ne_of_lt hsmall hlargest.2, fun _ => hfits⟩
  · -- only 0 and -1 times such a size are small enough
    have hcases : n = 0 ∨ n = -1 ∧ bytes = 2 ^ 63 := by
      obtain ⟨hlo, hhi⟩ := hfits
      have hle : (2 : Int) ^ 63 ≤ bytes := by exact_mod_cast hlarge
      rcases Int.lt_trichotomy n 0 with hneg | rfl | hpos
      · have hone : n = -1 := by
          by_contra hne
          have hmul := Int.mul_le_mul_of_nonneg_right (c := bytes) (show n ≤ -2 by omega) (by omega)
          omega
        subst hone
        omega
      · exact .inl rfl
      · have hmul := Int.mul_le_mul_of_nonneg_right (c := bytes) (show 1 ≤ n by omega) (by omega)
        omega
    rcases hcases with rfl | ⟨rfl, rfl⟩
    · simp [Word.IsSigned]
    · refine ⟨fun h => ?_, fun h => absurd ⟨rfl, rfl⟩ h⟩
      exact absurd h.2 (by decide)

/-- What is known of a constant index in the place of another one: whether it can be folded, that
the folded address is right, and that it is the one for a register that holds the constant. -/
structure FoldsIndex (c : Scope) (s s' : State) (result : Ir.TempId) (source : Ir.Value)
    (bytes : Nat) (n : Int64) (ty : Ir.Ty) : Prop where
  lowers : (∃ s₂, (c.lowerElementPtr result source (.constant n ty)).run s = .ok ((), s₂)) ↔
    ¬(n.toInt = -1 ∧ bytes = 2 ^ 63)
  leaves : ∀ s₂, (c.lowerElementPtr result source (.constant n ty)).run s = .ok ((), s₂) →
    ∃ r code, LeavesAddress c s s₂ result source (.constant n ty) r code
  same : ∀ {M : Interpretation} (σ : Machine.State M) v, s'.HoldsConstant c σ v n ty →
    s'.byteOffset? c σ source v = s'.byteOffset? c σ source (.constant n ty)

theorem folds_elementPtr (hs : Tracked c.target s) (hp : c.target.pointerBits ≤ 64)
    (h : (c.lowerElementPtr result source index).run s = .ok ((), s'))
    (hstruct : ¬(Scope.pointee source).isStruct) {bytes : Nat}
    (hsize : (Scope.stride (Scope.pointee source)).size c.target.pointerBytes = .ok bytes)
    {n : Int64} (hfits : Word.IsSigned (n.toInt * bytes)) (ty : Ir.Ty) :
    FoldsIndex c s s' result source bytes n ty := by
  refine ⟨?_, fun s₂ h => leavesAddress_elementPtr hs hp h, fun σ v hv => ?_⟩
  · have hbytes : bytes < 2 ^ 64 := by
      refine size_lt ?_ hsize
      rw [Target.pointerBytes]
      omega
    rw [← fitSigned_mul_signed hbytes hfits]
    obtain ⟨base, s₁, hsource, hrest⟩ := run_bind_eq_ok.mp h
    obtain ⟨dest, s₂, hdest, -⟩ := run_bind_eq_ok.mp hrest
    constructor
    · rintro ⟨s₃, h⟩
      obtain ⟨base', s₁', hsource', h⟩ := run_bind_eq_ok.mp h
      cases hsource.symm.trans hsource'
      obtain ⟨dest', s₂', hdest', h⟩ := run_bind_eq_ok.mp h
      cases hdest.symm.trans hdest'
      rw [if_neg hstruct] at h
      obtain ⟨bytes', s₃, hsized, h⟩ := run_bind_eq_ok.mp h
      obtain ⟨hsize', rfl⟩ := run_size_eq_ok.mp hsized
      cases hsize.symm.trans hsize'
      obtain ⟨o, s₄, hchecked, -⟩ := run_bind_eq_ok.mp h
      exact ⟨o, (run_check_eq_ok.mp hchecked).1⟩
    · rintro ⟨o, ho⟩
      have hemit : ∃ s₃, (c.emitOffset dest base o).run s₂ = .ok ((), s₃) := by
        rw [Scope.emitOffset]
        split <;> exact ⟨_, run_emit _ _⟩
      obtain ⟨s₃, hemit⟩ := hemit
      refine ⟨s₃, run_bind_eq_ok.mpr ⟨base, s₁, hsource, run_bind_eq_ok.mpr ⟨dest, s₂, hdest, ?_⟩⟩⟩
      rw [if_neg hstruct]
      exact run_bind_eq_ok.mpr ⟨bytes, s₂, run_size_eq_ok.mpr ⟨hsize, rfl⟩,
        run_bind_eq_ok.mpr ⟨o, s₂, run_check_eq_ok.mpr ⟨ho, rfl⟩, hemit⟩⟩
  · rw [State.byteOffset?_element hstruct hsize, State.byteOffset?_element hstruct hsize,
      hv.number?]
    rfl

/-! ## Functions -/

/-- Lowering of the function comes to the address computation, its code stands in block `k` of `g`
and leaves the address, and constant indices that fit fold. -/
def Indexes (c : Scope) (f : Ir.Function) (g : Machine.Function) (k : Nat) (b : Ir.Block)
    (todo : List Ir.Instruction) (result : Ir.TempId) (source index : Ir.Value) (ty : Ir.Ty) :
    Prop :=
  ∃ s s' r code,
    Reaches c f (.elementPtr result source index ty :: todo) b (f.blocks.drop (k + 1)) s ∧
    Lowers c g k (.elementPtr result source index ty) s s' code ∧
    LeavesAddress c s s' result source index r code ∧
    ∀ bytes, ¬(Scope.pointee source).isStruct →
      (Scope.stride (Scope.pointee source)).size c.target.pointerBytes = .ok bytes →
      ∀ (n : Int64) (ty : Ir.Ty), Word.IsSigned (n.toInt * bytes) →
        FoldsIndex c s s' result source bytes n ty

/-- **Address computation is right, and constant indices agree with registers.**  The code of every
address computation leaves the address that the source stands for plus the offset of the member, or
plus the index times the size of an element.  A constant index in its place whose product with the
size fits can be folded, to the address for a register that holds it, unless it is `-1` and the size
is `2 ^ 63`, which is negative as a signed number. -/
theorem indexes_elementPtr (a : Arch) (h : lowerFunction a.target f = .ok g) {k : Nat}
    {b : Ir.Block} (hb : f.blocks[k]? = some b) {before todo : List Ir.Instruction} {ty : Ir.Ty}
    (hi : b.instructions = before ++ .elementPtr result source index ty :: todo) :
    Indexes ⟨a.target, f.name⟩ f g k b todo result source index ty := by
  obtain ⟨s, s', code, hreaches, hlowers⟩ := exists_lowered_instruction h hb hi
  obtain ⟨next, hrun⟩ := hlowers.run
  have hp : a.target.pointerBits ≤ 64 := by cases a <;> decide
  obtain ⟨r, code', hleaves⟩ := leavesAddress_elementPtr hlowers.tracked hp hrun
  have hcode : code' = code :=
    List.append_cancel_left (hleaves.code_eq.symm.trans hlowers.code_eq)
  subst hcode
  exact ⟨s, s', r, code', hreaches, hlowers, hleaves, fun bytes hstruct hsize n ty hfits =>
    folds_elementPtr hlowers.tracked hp hrun hstruct hsize hfits ty⟩

/-- What `stepping` steps over. -/
def stepped (length : UInt64) : Ir.Value := .param "p" (.ptr (.array 1 (.array length .i8)))

/-- A step over arrays of the given length. -/
def stepping (length : UInt64) (index : Ir.Value) : Ir.Block where
  name := "entry"
  instructions := [.elementPtr 0 (stepped length) index (.ptr (.array length .i8)),
    .ret (some (.temp 0 (.ptr (.array length .i8))))]

/-- A function of a pointer and an index that makes the step and returns where it gets to. -/
def strider (length : UInt64) (ty : Ir.Ty) (index : Ir.Value) : Ir.Function where
  name := "f"
  returnType := .ptr (.array length .i8)
  parameters := [⟨"p", (stepped length).ty, false⟩, ⟨"i", ty, false⟩]
  blocks := [stepping length index]

theorem strider_indexes : ∃ g,
    lowerFunction Arch.riscv32.target (strider 12 .i8 (.param "i" .i8)) = .ok g ∧
    Indexes ⟨Arch.riscv32.target, "f"⟩ (strider 12 .i8 (.param "i" .i8)) g 0
      (stepping 12 (.param "i" .i8)) [.ret (some (.temp 0 (.ptr (.array 12 .i8))))] 0 (stepped 12)
      (.param "i" .i8) (.ptr (.array 12 .i8)) := by
  have hok : (lowerFunction Arch.riscv32.target (strider 12 .i8 (.param "i" .i8))).toBool := by
    decide +kernel
  cases hg : lowerFunction Arch.riscv32.target (strider 12 .i8 (.param "i" .i8)) with
  | error e => rw [hg] at hok; cases hok
  | ok g =>
    have hblock : (stepping 12 (.param "i" .i8)).instructions = [] ++ .elementPtr 0 (stepped 12)
      (.param "i" .i8) (.ptr (.array 12 .i8)) :: _ := rfl
    exact ⟨g, rfl, indexes_elementPtr .riscv32 hg (k := 0) rfl hblock⟩

/-- `-1` times `2 ^ 63` fits, and a register that holds `-1` steps back by as much, but the constant
is rejected. -/
theorem strider_overflows :
    (Scope.stride (Scope.pointee (stepped (.ofNat (2 ^ 63))))).size
      Arch.aarch64.target.pointerBytes = .ok (2 ^ 63) ∧
    Word.IsSigned ((-1 : Int64).toInt * (2 ^ 63 : Nat)) ∧
    (lowerFunction Arch.aarch64.target (strider (.ofNat (2 ^ 63)) .i64 (.param "i" .i64))).toBool ∧
    lowerFunction Arch.aarch64.target (strider (.ofNat (2 ^ 63)) .i64 (.constant (-1) .i64)) =
      .error .outOfRange :=
  ⟨by decide +kernel, ⟨by decide, by decide⟩, by decide +kernel, by decide +kernel⟩

end Lowering

end Retarget
