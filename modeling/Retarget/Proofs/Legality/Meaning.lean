import Retarget.Proofs.Execution.Blocks
import Retarget.Proofs.Legality.Expansion
import Retarget.Proofs.Lowering.Operands

/-!
# What an expansion means

What an expansion puts in the place of an instruction has the effect of the instruction, whether
destination and sources coincide or not, and changes new registers besides (`Rewrite.stands`).  A
load that extends what it loads has the effect of the load and the extension, up to the register
that was loaded (`stands_extendingLoad`).  The arithmetic behind it stands first.
-/

namespace Retarget

open Machine Target

/-! ## Words -/

theorem srem_eq_sub {w : Nat} (x y : BitVec w) : x.srem y = x - x.sdiv y * y := by
  have hrem : x.toInt - x.toInt.tdiv y.toInt * y.toInt = (x.srem y).toInt := by
    rw [BitVec.toInt_srem, Int.tmod_def, Int.mul_comm]
  apply BitVec.eq_of_toInt_eq
  rw [BitVec.toInt_sub, BitVec.toInt_mul, BitVec.toInt_sdiv, Int.bmod_mul_bmod,
    Int.sub_bmod_bmod, hrem]
  exact (BitVec.toInt_bmod_cancel _).symm

theorem umod_eq_sub {w : Nat} (x y : BitVec w) : x.umod y = x - x.udiv y * y := by
  rw [BitVec.umod_eq, BitVec.udiv_eq]
  have hmul : x.toNat / y.toNat * y.toNat ≤ x.toNat := Nat.div_mul_le_self _ _
  have hprod : (x / y * y).toNat = x.toNat / y.toNat * y.toNat := by
    rw [BitVec.toNat_mul, BitVec.toNat_udiv, Nat.mod_eq_of_lt (Nat.lt_of_le_of_lt hmul x.isLt)]
  have hle : x / y * y ≤ x := by
    rw [BitVec.le_def, hprod]
    exact hmul
  apply BitVec.eq_of_toNat_eq
  rw [BitVec.toNat_sub_of_le hle, BitVec.toNat_umod, hprod]
  exact Nat.mod_eq_sub_div_mul

namespace Word

theorem cast_low (s : Nat) (v : Int) : (low s v : Int) = v % ((2 ^ s : Nat) : Int) := by
  have hpos : ((2 ^ s : Nat) : Int) ≠ 0 := Int.natCast_ne_zero.mpr (by simp)
  exact Int.toNat_of_nonneg (Int.emod_nonneg v hpos)

theorem ofInt_low {s d : Nat} (v : Int) :
    BitVec.ofInt d (low s v) = (BitVec.ofInt s v).setWidth d := by
  apply BitVec.eq_of_toNat_eq
  rw [BitVec.toNat_setWidth, BitVec.toNat_ofInt, BitVec.toNat_ofInt, low]
  norm_cast

theorem setWidth_ofInt {d s : Nat} (h : d ≤ s) (v : Int) :
    (BitVec.ofInt s v).setWidth d = BitVec.ofInt d v := by
  have hdvd : ((2 ^ d : Nat) : Int) ∣ ((2 ^ s : Nat) : Int) :=
    Int.natCast_dvd_natCast.mpr (Nat.pow_dvd_pow 2 h)
  apply BitVec.eq_of_toInt_eq
  rw [← ofInt_low, cast_low, BitVec.toInt_ofInt, BitVec.toInt_ofInt, Int.bmod_def, Int.bmod_def,
    Int.emod_emod_of_dvd v hdvd]

theorem ofInt_signed_low {s d : Nat} (v : Int) :
    BitVec.ofInt d (signed s (low s v)) = (BitVec.ofInt s v).signExtend d := by
  rw [BitVec.signExtend, BitVec.toInt_ofInt, signed, cast_low]
  exact congrArg _ (Int.emod_bmod v (2 ^ s))

theorem ofInt_of_isSigned {s d : Nat} {v : Int} (hs : 64 ≤ s) (hv : IsSigned v) :
    BitVec.ofInt d v = (BitVec.ofInt s v).signExtend d := by
  obtain ⟨n, rfl⟩ : ∃ n, s = n + 1 := ⟨s - 1, by omega⟩
  have hhalf : (2 : Int) ^ 63 ≤ ((2 ^ n : Nat) : Int) := by
    exact_mod_cast Nat.pow_le_pow_right (by decide) (by omega)
  have hdouble : ((2 ^ (n + 1) : Nat) : Int) = 2 * ((2 ^ n : Nat) : Int) := by
    rw [Nat.pow_succ, Int.natCast_mul, Int.mul_comm]
    rfl
  obtain ⟨hlo, hhi⟩ := hv
  rw [BitVec.signExtend, BitVec.toInt_ofInt]
  rw [Int.bmod_eq_of_le] <;> omega

theorem ofInt_of_nonneg {s d : Nat} {v : Int} (hpos : 0 ≤ v) (hlt : v < 2 ^ s) :
    BitVec.ofInt d v = (BitVec.ofInt s v).setWidth d := by
  rw [← ofInt_low, cast_low, Int.emod_eq_of_lt hpos (by exact_mod_cast hlt)]

theorem IsSigned.lt_two_pow {s : Nat} {v : Int} (hv : IsSigned v) (hs : 64 ≤ s) : v < 2 ^ s := by
  have hle : (2 : Int) ^ 63 ≤ 2 ^ s := by
    exact_mod_cast Nat.pow_le_pow_right (n := 2) (by decide) (by omega)
  exact Int.lt_of_lt_of_le hv.2 hle

end Word

/-- Conversions that a 64-bit constant can be the result of: what is made wider with zeros is not
negative, unless its bits are masked first. -/
def Machine.GenericOp.Converts (op : GenericOp) (value : Int) (source dest : Nat) : Prop :=
  match op with
  | .zext => source < 64 ∨ dest ≤ source ∨ 0 ≤ value
  | .trunc => dest ≤ source ∨ 0 ≤ value ∧ value < 2 ^ source
  | _ => True

/-- The word that a conversion makes of a word. -/
def Machine.GenericOp.convert (op : GenericOp) {source : Nat} (x : BitVec source) (dest : Nat) :
    BitVec dest :=
  match op with
  | .sext => x.signExtend dest
  | _ => x.setWidth dest

theorem ofInt_of_foldConversion {op : GenericOp} {value folded : Int} {source dest : Nat}
    (hop : op.isWidthConversion) (hvalue : Word.IsSigned value)
    (hconverts : op.Converts value source dest)
    (h : foldConversion op value source dest = .ok folded) :
    BitVec.ofInt dest folded = op.convert (BitVec.ofInt source value) dest := by
  have hmask : ∀ bits, maskTo bits value = .ok folded → 64 ≤ bits ∧ folded = value ∨
      folded = Word.low bits value := by
    intro bits h
    rw [maskTo] at h
    split at h
    · next hbits =>
      cases h
      exact .inl ⟨hbits, rfl⟩
    · split at h
      · cases h
      · cases h
        exact .inr rfl
  cases op with
  | sext =>
    cases h
    rw [GenericOp.convert]
    split
    · rw [Word.ofInt_signed_low]
    · next hwide => rw [← Word.ofInt_of_isSigned (Nat.le_of_not_lt hwide) hvalue]
  | zext =>
    show _ = (BitVec.ofInt source value).setWidth dest
    rcases hmask source h with ⟨hbits, rfl⟩ | rfl
    · rcases hconverts.resolve_left (Nat.not_lt.mpr hbits) with hle | hpos
      · rw [Word.setWidth_ofInt hle]
      · rw [← Word.ofInt_of_nonneg hpos (hvalue.lt_two_pow hbits)]
    · rw [Word.ofInt_low]
  | trunc =>
    have hlow : (BitVec.ofInt source value).setWidth dest = BitVec.ofInt dest value := by
      rcases hconverts with hle | ⟨hpos, hlt⟩
      · exact Word.setWidth_ofInt hle value
      · exact (Word.ofInt_of_nonneg hpos hlt).symm
    show _ = (BitVec.ofInt source value).setWidth dest
    rw [hlow]
    rcases hmask dest h with ⟨-, rfl⟩ | rfl
    · rfl
    · rw [Word.ofInt_low, BitVec.setWidth_eq]
  | _ => cases hop

/-- A folded conversion computes what the conversion does. -/
theorem foldConversion_eq_ok {M : Interpretation} {op : GenericOp} {value folded : Int}
    {source dest : Nat} (hop : op.isWidthConversion) (hvalue : Word.IsSigned value)
    (hconverts : op.Converts value source dest)
    (h : foldConversion op value source dest = .ok folded) (relation : Option Relation) :
    compute M op relation dest [.bits ⟨source, BitVec.ofInt source value⟩] =
      some (BitVec.ofInt dest folded) := by
  rw [ofInt_of_foldConversion hop hvalue hconverts h]
  cases op with
  | sext | zext | trunc => rfl
  | _ => cases hop

namespace Machine

/-! ## Instructions that compute -/

variable {M : Interpretation} {f g : Function} {s t : State M} {i : Instruction} {op : GenericOp}
  {relation : Option Relation} {dest : Operand} {sources : List Operand} {frame : Frame}

/-- Whether an operation computes or loads a value. -/
def GenericOp.defines (op : GenericOp) : Bool :=
  !(op.flags.store || op.flags.ret || op.flags.jump || op.flags.call)

/-- The instruction computes or loads a value for `dest`. -/
structure Instruction.Computes (i : Instruction) (op : GenericOp) (relation : Option Relation)
    (dest : Operand) (sources : List Operand) : Prop where
  generic : i.generic? = some op
  flags : i.flags.plain = op.flags
  defines : op.defines
  relation_eq : i.relation = relation
  operands : i.operands = dest :: sources

theorem effect_of_defines (hop : op.defines) (memory : Memory M.pointerBits)
    (args : List (Arg M.pointerBits)) : effect op relation (some dest) memory args =
      (produce op relation dest.size memory args).map fun w => .assign dest ⟨dest.size, w⟩ := by
  have hdefault : effect op relation (some dest) memory args =
      (produce op relation dest.size memory args).bind fun w =>
        some (.assign dest ⟨dest.size, w⟩) := by
    cases op <;> first | rfl | cases hop
  rw [hdefault]
  cases produce op relation dest.size memory args <;> rfl

theorem produce_eq_compute (hop : op.flags.load = false) (width : Nat)
    (memory : Memory M.pointerBits) (args : List (Arg M.pointerBits)) :
    produce op relation width memory args = compute M op relation width args := by
  cases op <;> first | rfl | cases hop

namespace Instruction.Computes

theorem hasDef (h : i.Computes op relation dest sources) : i.hasDef := by
  have hflags : i.isEffect = !op.defines := by
    rw [GenericOp.defines, ← h.flags, Bool.not_not]
    rfl
  simp [Instruction.hasDef, h.operands, hflags, h.defines]

theorem runCode (h : i.Computes op relation dest sources) (is : List Instruction) (s : State M) :
    f.runCode (i :: is) s =
      Option.bind (sources.mapM (·.eval f.frame s)) fun args =>
        (produce op relation dest.size s.memory args).bind fun w =>
          (s.assign dest ⟨dest.size, w⟩).bind (f.runCode is) := by
  have heffect : f.effectAt s i = Option.bind (sources.mapM (·.eval f.frame s)) fun args =>
      effect op relation (some dest) s.memory args := by
    rw [f.effectAt_eq h.generic, Function.effectOf, h.generic, h.relation_eq,
      Instruction.uses, Instruction.def?, h.hasDef, h.operands]
    simp [guard, h.flags]
  rw [Function.runCode, heffect]
  cases sources.mapM (·.eval f.frame s) with
  | none => rfl
  | some args =>
    simp only [Option.bind_eq_bind, Option.bind_some, effect_of_defines h.defines]
    cases produce op relation dest.size s.memory args with
    | none => rfl
    | some w =>
      simp only [Option.map_some, Option.bind_some, State.apply]
      cases s.assign dest ⟨dest.size, w⟩ <;> rfl

theorem runCode_eq {is : List Instruction} {args : List (Arg M.pointerBits)} {w : BitVec dest.size}
    {s' : State M} (h : i.Computes op relation dest sources)
    (hargs : sources.mapM (·.eval f.frame s) = some args)
    (hw : produce op relation dest.size s.memory args = some w)
    (hs : s.assign dest ⟨dest.size, w⟩ = some s') : f.runCode (i :: is) s = f.runCode is s' := by
  rw [h.runCode, hargs, Option.bind_some, hw, Option.bind_some, hs, Option.bind_some]

theorem run_cases {is : List Instruction} {r : Option Exit × State M}
    (h : i.Computes op relation dest sources) (hr : f.runCode (i :: is) s = some r) :
    ∃ args w s', sources.mapM (·.eval f.frame s) = some args ∧
      produce op relation dest.size s.memory args = some w ∧
      s.assign dest ⟨dest.size, w⟩ = some s' ∧ f.runCode is s' = some r := by
  rw [h.runCode] at hr
  obtain ⟨args, hargs, hr⟩ := Option.bind_eq_some_iff.mp hr
  obtain ⟨w, hw, hr⟩ := Option.bind_eq_some_iff.mp hr
  obtain ⟨s', hs', hr⟩ := Option.bind_eq_some_iff.mp hr
  exact ⟨args, w, s', hargs, hw, hs', hr⟩

theorem of_run {is : List Instruction} {r : Option Exit × State M} (hop : i.generic? = some op)
    (hdefines : op.defines) (hoperands : i.operands = dest :: sources)
    (hr : f.runCode (i :: is) s = some r) : i.Computes op i.relation dest sources := by
  rw [Function.runCode] at hr
  obtain ⟨e, he, -⟩ := Option.bind_eq_some_iff.mp hr
  rw [f.effectAt_eq hop] at he
  obtain ⟨op', args, hexec⟩ := effectOf_eq_some.mp he
  cases hop.symm.trans hexec.generic
  exact ⟨hop, hexec.flags, hdefines, rfl, hoperands⟩

end Instruction.Computes

/-! ## Evaluation -/

theorem Operand.eval_write {o : Operand} {r : RegId} (h : o.unallocated? ≠ some r) (v : Bits) :
    o.eval frame (s.write r v) = o.eval frame s := by
  refine Operand.eval_congr (s := s) (t := s.write r v) (fun x hx => ?_) (fun _ => rfl) frame
  have hne : x ≠ r := by
    rintro rfl
    exact h hx
  simp only [State.write, if_neg hne]

theorem Operand.eval_virtualReg_write (r : RegId) (ty : LowType) (v : BitVec ty.bits) :
    (Operand.virtualReg r ty).eval frame (s.write r ⟨ty.bits, v⟩) =
      some (.bits ⟨ty.bits, v⟩) := by
  simp [Operand.eval, Operand.virtualReg, State.write, Bits.read?, Operand.size]

theorem Operand.eval_immediate {o : Operand} {v : Int} (h : o.immediate? = some v) :
    o.eval frame s = some (.bits ⟨o.size, BitVec.ofInt o.size v⟩) := by
  rw [Operand.immediate?] at h
  rw [Operand.eval]
  split at h
  · next hkind =>
    cases h
    rw [hkind]
  · cases h

theorem Function.runCode_singleton (f : Function) (i : Instruction) (s : State M) :
    f.runCode [i] s = (f.effectAt s i).bind s.apply := by
  rw [Function.runCode]
  cases f.effectAt s i with
  | none => rfl
  | some e =>
    simp only [Option.bind_eq_bind, Option.bind_some]
    cases s.apply e with
    | none => rfl
    | some r =>
      obtain ⟨x, s'⟩ := r
      cases x <;> rfl

theorem Agree.write_new {next : Nat} {r : RegId} (h : Agree (· < next) s t) (hr : next ≤ r)
    (v : Bits) : Agree (· < next) s (t.write r v) := by
  have hwrite : Agree (· < next) t (t.write r v) := by
    refine .write ?_ t v
    exact Nat.not_lt.mpr hr
  exact (h.trans hwrite).mono fun x hx => ⟨hx, hx⟩

theorem mapM_set {α β : Type} {F G : α → Option β} {as : List α} {cs : List β} {n : Nat} {a b : α}
    (ha : as[n]? = some a) (hb : G b = F a) (hrest : ∀ c ∈ as, G c = F c)
    (h : as.mapM F = some cs) : (as.set n b).mapM G = some cs := by
  induction as generalizing n cs with
  | nil => exact h
  | cons c as ih =>
    obtain ⟨d, ds, hd, hds, rfl⟩ := mapM_cons_eq_some.mp h
    have hrest' : ∀ c ∈ as, G c = F c := fun c hc => hrest c (by simp [hc])
    cases n with
    | zero =>
      cases ha
      exact mapM_cons_eq_some.mpr ⟨d, ds, hb.trans hd, mapM_of_eq hrest' hds, rfl⟩
    | succ n =>
      exact mapM_cons_eq_some.mpr ⟨d, ds, (hrest c (by simp)).trans hd, ih ha hrest' hds, rfl⟩

theorem mapM₁_eq_some {α β : Type} {F : α → Option β} {a : α} {cs : List β} :
    [a].mapM F = some cs ↔ ∃ x, F a = some x ∧ cs = [x] := by
  constructor
  · intro h
    obtain ⟨x, cs', hx, hnil, rfl⟩ := mapM_cons_eq_some.mp h
    cases hnil
    exact ⟨x, hx, rfl⟩
  · rintro ⟨x, hx, rfl⟩
    exact mapM_cons_eq_some.mpr ⟨x, [], hx, rfl, rfl⟩

theorem mapM₂_eq_some {α β : Type} {F : α → Option β} {a b : α} {cs : List β} :
    [a, b].mapM F = some cs ↔ ∃ x y, F a = some x ∧ F b = some y ∧ cs = [x, y] := by
  constructor
  · intro h
    obtain ⟨x, cs', hx, hrest, rfl⟩ := mapM_cons_eq_some.mp h
    obtain ⟨y, hy, rfl⟩ := mapM₁_eq_some.mp hrest
    exact ⟨x, y, hx, hy, rfl⟩
  · rintro ⟨x, y, hx, hy, rfl⟩
    exact mapM_cons_eq_some.mpr ⟨x, [y], hx, mapM₁_eq_some.mpr ⟨y, hy, rfl⟩, rfl⟩

end Machine

/-! ## Rewrites -/

/-- What is taken for granted of the machine: addresses have the width of the target, a register
that values are passed in holds the address that was written to it last, and one register of RV32
reads as zero. -/
structure Arch.Models (a : Arch) (M : Interpretation) : Prop where
  pointerBits : M.pointerBits = a.target.pointerBits
  read_write : ∀ root ∈ a.target.passing, ∀ p (v : BitVec a.target.pointerBits),
    M.readPhysical (M.writePhysical p
      (a.target.registers.withWidth root a.target.pointerBits) ⟨_, v⟩)
      (a.target.registers.withWidth root a.target.pointerBits) a.target.pointerBits = some v
  write_write : ∀ root ∈ a.target.passing, ∀ p (v w : BitVec a.target.pointerBits),
    M.writePhysical (M.writePhysical p
      (a.target.registers.withWidth root a.target.pointerBits) ⟨_, v⟩)
      (a.target.registers.withWidth root a.target.pointerBits) ⟨_, w⟩ =
    M.writePhysical p (a.target.registers.withWidth root a.target.pointerBits) ⟨_, w⟩
  zero : a = .riscv32 → ∀ p width, width ≤ 32 → M.readPhysical p Riscv.zero width = some 0

namespace Target

variable {M : Interpretation} {f : Function} {i : Instruction} {next : Nat}

/-- From every state, the code `new` leaves the block as the instruction does, with the same values
in registers below `next`. -/
def Stands (M : Interpretation) (next : Nat) (f : Function) (i : Instruction)
    (new : List Instruction) : Prop :=
  ∀ (s : State M) x s', f.runCode [i] s = some (x, s') →
    ∃ t, f.runCode new s = some (x, t) ∧ Agree (· < next) s' t

theorem unallocated?_ne {o : Operand} {r : RegId} (ho : ∀ x, o.unallocated? = some x → x < next)
    (hr : next ≤ r) : o.unallocated? ≠ some r := by
  exact fun h => absurd (ho r h) (Nat.not_lt.mpr hr)

theorem computes_generic {op : GenericOp} (hop : op.defines) (dest : Operand)
    (sources : List Operand) :
    (Instruction.generic op (dest :: sources)).markExpanded.Computes op none dest sources := by
  refine ⟨rfl, ?_, hop, rfl, rfl⟩
  show Flags.plain (op.flags.union { expanded := true }) = op.flags
  cases op <;> rfl

theorem computes_compare (r : Relation) (d x y : Operand) :
    (Riscv.compare r d x y).Computes .cmp (some r) d [x, y] :=
  ⟨rfl, rfl, rfl, rfl, rfl⟩

theorem computes_exclusiveOr (d x y : Operand) :
    (Riscv.exclusiveOr d x y).Computes .xor none d [x, y] :=
  ⟨rfl, rfl, rfl, rfl, rfl⟩

theorem computes_loadImmediate (dest imm : Operand) :
    (loadImmediate dest imm).Computes .loadImm none dest [imm] :=
  ⟨rfl, rfl, rfl, rfl, rfl⟩

theorem runCode_loadImmediate {imm : Operand} {v : Int} (h : imm.immediate? = some v) (r : RegId)
    (is : List Instruction) (s : State M) :
    f.runCode (loadImmediate (.virtualReg r imm.ty) imm :: is) s =
      f.runCode is (s.write r ⟨imm.size, BitVec.ofInt imm.size v⟩) := by
  have hargs : [imm].mapM (·.eval f.frame s) =
      some [.bits ⟨imm.size, BitVec.ofInt imm.size v⟩] :=
    mapM₁_eq_some.mpr ⟨_, imm.eval_immediate h, rfl⟩
  rw [(computes_loadImmediate _ _).runCode, hargs, Option.bind_some]
  show (some ((BitVec.ofInt imm.size v).setWidth imm.size)).bind _ = _
  rw [BitVec.setWidth_eq]
  rfl

theorem Stands.finish {op : GenericOp} {relation : Option Relation} {dest : Operand}
    {sources : List Operand} {j : Instruction} {s t s' : State M} {args : List (Arg M.pointerBits)}
    {w : BitVec dest.size} (hj : j.Computes op relation dest sources)
    (hst : Agree (· < next) s t) (hs : s.assign dest ⟨dest.size, w⟩ = some s')
    (hargs : sources.mapM (·.eval f.frame t) = some args)
    (hw : produce op relation dest.size t.memory args = some w) :
    ∃ t', f.runCode [j] t = some (none, t') ∧ Agree (· < next) s' t' := by
  obtain ⟨t', ht', hagree⟩ := hst.assign hs
  exact ⟨t', by rw [hj.runCode_eq hargs hw ht']; rfl, hagree⟩

theorem run_computes {op : GenericOp} {dest : Operand} {sources : List Operand} {s s' : State M}
    {x : Option Exit} (hop : i.generic? = some op) (hdefines : op.defines)
    (hoperands : i.operands = dest :: sources) (h : f.runCode [i] s = some (x, s')) :
    x = none ∧ ∃ args w, sources.mapM (·.eval f.frame s) = some args ∧
      produce op i.relation dest.size s.memory args = some w ∧
      s.assign dest ⟨dest.size, w⟩ = some s' := by
  obtain ⟨args, w, s₁, hargs, hw, hs₁, hrun⟩ :=
    (Instruction.Computes.of_run hop hdefines hoperands h).run_cases h
  cases hrun
  exact ⟨rfl, args, w, hargs, hw, hs₁⟩

theorem stands_convert {op : GenericOp} {dest source : Operand} {value folded : Int}
    (hop : i.generic? = some op) (hconversion : op.isWidthConversion)
    (hoperands : i.operands = [dest, source]) (hvalue : source.immediate? = some value)
    (hfolded : foldConversion op value source.size dest.size = .ok folded)
    (hword : Word.IsSigned value) (hconverts : op.Converts value source.size dest.size) :
    Stands M next f i [loadImmediate dest (.immediate folded dest.ty)] := by
  intro s x s' h
  have hdefines : op.defines := by cases op <;> first | rfl | cases hconversion
  obtain ⟨rfl, args, w, hargs, hw, hassign⟩ := run_computes hop hdefines hoperands h
  obtain ⟨c, hc, rfl⟩ := mapM₁_eq_some.mp hargs
  cases (source.eval_immediate hvalue).symm.trans hc
  have hcompute := foldConversion_eq_ok (M := M) hconversion hword hconverts hfolded i.relation
  have hload : op.flags.load = false := by cases op <;> first | rfl | cases hconversion
  rw [produce_eq_compute hload] at hw
  cases hcompute.symm.trans hw
  refine Stands.finish (computes_loadImmediate _ _) (.refl _ s) hassign
    (mapM₁_eq_some.mpr ⟨_, Operand.eval_immediate rfl, rfl⟩) ?_
  show some ((BitVec.ofInt dest.size folded).setWidth dest.size) = _
  rw [BitVec.setWidth_eq]

theorem compute_remainder {op division : GenericOp} {relation : Option Relation} {width : Nat}
    {a b : Arg M.pointerBits} {w : BitVec width}
    (hdivision : op = .mod ∧ division = .div ∨ op = .modu ∧ division = .divu)
    (h : compute M op relation width [a, b] = some w) :
    ∃ x y q, a.word M width = some x ∧ b.word M width = some y ∧
      compute M division none width [a, b] = some q ∧ w = x - q * y := by
  have hwords : ∀ {F : BitVec width → BitVec width → BitVec width},
      (do let x ← a.word M width
          let y ← b.word M width
          if y = 0 then none else return F x y) = some w →
        ∃ x y, a.word M width = some x ∧ b.word M width = some y ∧ y ≠ 0 ∧ w = F x y := by
    intro F h
    obtain ⟨x, hx, h⟩ := Option.bind_eq_some_iff.mp h
    obtain ⟨y, hy, h⟩ := Option.bind_eq_some_iff.mp h
    split at h
    · cases h
    · next hzero =>
      cases h
      exact ⟨x, y, hx, hy, hzero, rfl⟩
  rcases hdivision with ⟨rfl, rfl⟩ | ⟨rfl, rfl⟩
  all_goals obtain ⟨x, y, hx, hy, hzero, rfl⟩ := hwords h
  · refine ⟨x, y, x.sdiv y, hx, hy, ?_, srem_eq_sub x y⟩
    show (a.word M width).bind (fun x => (b.word M width).bind fun y =>
      if y = 0 then none else some (x.sdiv y)) = _
    rw [hx, Option.bind_some, hy, Option.bind_some, if_neg hzero]
  · refine ⟨x, y, x.udiv y, hx, hy, ?_, umod_eq_sub x y⟩
    show (a.word M width).bind (fun x => (b.word M width).bind fun y =>
      if y = 0 then none else some (x.udiv y)) = _
    rw [hx, Option.bind_some, hy, Option.bind_some, if_neg hzero]

theorem stands_remainder {op division : GenericOp} {dest lhs rhs : Operand}
    (hop : i.generic? = some op)
    (hdivision : op = .mod ∧ division = .div ∨ op = .modu ∧ division = .divu)
    (hoperands : i.operands = [dest, lhs, rhs]) (hi : i.Within (· < next)) :
    Stands M next f i
      [(Instruction.generic division [.virtualReg next dest.ty, lhs, rhs]).markExpanded,
        (Instruction.generic .mul [.virtualReg (next + 1) dest.ty, .virtualReg next dest.ty,
          rhs]).markExpanded,
        (Instruction.generic .sub [dest, lhs, .virtualReg (next + 1) dest.ty]).markExpanded] := by
  intro s x s' h
  have hdefines : op.defines ∧ division.defines ∧ op.flags.load = false ∧
      division.flags.load = false := by
    rcases hdivision with ⟨rfl, rfl⟩ | ⟨rfl, rfl⟩ <;> decide
  obtain ⟨rfl, args, w, hargs, hw, hassign⟩ := run_computes hop hdefines.1 hoperands h
  obtain ⟨a, b, ha, hb, rfl⟩ := mapM₂_eq_some.mp hargs
  rw [produce_eq_compute hdefines.2.2.1] at hw
  obtain ⟨x, y, q, hx, hy, hq, rfl⟩ := compute_remainder hdivision hw
  have hlhs : ∀ r, lhs.unallocated? = some r → r < next := hi lhs (by simp [hoperands])
  have hrhs : ∀ r, rhs.unallocated? = some r → r < next := hi rhs (by simp [hoperands])
  let s₁ := s.write next ⟨dest.ty.bits, q⟩
  let s₂ := s₁.write (next + 1) ⟨dest.ty.bits, q * y⟩
  have hquotient : ∀ is, f.runCode ((Instruction.generic division
      [.virtualReg next dest.ty, lhs, rhs]).markExpanded :: is) s = f.runCode is s₁ := by
    intro is
    refine (computes_generic hdefines.2.1 _ _).runCode_eq hargs ?_ rfl
    rw [produce_eq_compute hdefines.2.2.2]
    exact hq
  have hproduct : ∀ is, f.runCode ((Instruction.generic .mul [.virtualReg (next + 1) dest.ty,
      .virtualReg next dest.ty, rhs]).markExpanded :: is) s₁ = f.runCode is s₂ := by
    intro is
    refine (computes_generic rfl _ _).runCode_eq (mapM₂_eq_some.mpr
      ⟨_, b, Operand.eval_virtualReg_write _ _ _, ?_, rfl⟩) ?_ rfl
    · rw [Operand.eval_write (unallocated?_ne hrhs (Nat.le_refl _)), hb]
    · show (some ((q).setWidth dest.size)).bind (fun x => (b.word M dest.size).bind fun y =>
        some (x * y)) = _
      rw [hy, BitVec.setWidth_eq]
      rfl
  have hlhs₂ : lhs.eval f.frame s₂ = some a := by
    rw [Operand.eval_write (unallocated?_ne hlhs (Nat.le_succ _)),
      Operand.eval_write (unallocated?_ne hlhs (Nat.le_refl _)), ha]
  have hagree : Agree (· < next) s s₂ :=
    ((Agree.refl _ s).write_new (Nat.le_refl _) _).write_new (Nat.le_succ _) _
  rw [hquotient, hproduct]
  refine Stands.finish (computes_generic rfl _ _) hagree hassign (mapM₂_eq_some.mpr
    ⟨a, _, hlhs₂, Operand.eval_virtualReg_write _ _ _, rfl⟩) ?_
  show (a.word M dest.size).bind (fun x => (some ((q * y).setWidth dest.size)).bind fun y =>
    some (x - y)) = _
  rw [hx, BitVec.setWidth_eq]
  rfl

theorem operands_of_run₂ {op : GenericOp} {imm : Operand} {s s' : State M} {x : Option Exit}
    (hop : i.generic? = some op) (haddSub : op = .add ∨ op = .sub)
    (himm : i.operand? 2 = some imm) (h : f.runCode [i] s = some (x, s')) :
    ∃ dest lhs, i.operands = [dest, lhs, imm] := by
  have hdefines : op.defines := by rcases haddSub with rfl | rfl <;> rfl
  cases hoperands : i.operands with
  | nil => simp [Instruction.operand?, hoperands] at himm
  | cons dest sources =>
    obtain ⟨-, args, w, hargs, hw, -⟩ := run_computes hop hdefines hoperands h
    have hlength : args.length = 2 := by
      rcases haddSub with rfl | rfl
      all_goals rcases args with _ | ⟨_, _ | ⟨_, _ | _⟩⟩ <;> first | rfl | cases hw
    rw [length_of_mapM_eq_some hargs] at hlength
    obtain ⟨lhs, rhs, rfl⟩ := List.length_eq_two.mp hlength
    rw [Instruction.operand?, hoperands] at himm
    cases himm
    exact ⟨dest, lhs, rfl⟩

theorem stands_flip {op flipped : GenericOp} {imm : Operand} {value negated : Int}
    (hop : i.generic? = some op)
    (hflipped : op = .add ∧ flipped = .sub ∨ op = .sub ∧ flipped = .add)
    (himm : i.operand? 2 = some imm) (hvalue : imm.immediate? = some value)
    (hnegated : Word.negate? value = some negated)
    (hwidth : ∀ dest ∈ i.operands.head?, imm.size = dest.size) :
    Stands M next f i
      [(i.setOpcode (.generic flipped)).replaceOperand 2 (imm.setImmediate negated)] := by
  intro s x s' h
  obtain ⟨dest, lhs, hoperands⟩ := operands_of_run₂ hop
    (hflipped.imp (fun h => h.1) fun h => h.1) himm h
  have hwidth : imm.size = dest.size := hwidth dest (by simp [hoperands])
  have hdefines : op.defines ∧ flipped.defines ∧ op.flags = {} ∧ flipped.flags = {} := by
    rcases hflipped with ⟨rfl, rfl⟩ | ⟨rfl, rfl⟩ <;> decide
  have hcomputes := Instruction.Computes.of_run hop hdefines.1 hoperands h
  obtain ⟨rfl, args, w, hargs, hw, hassign⟩ := run_computes hop hdefines.1 hoperands h
  obtain ⟨a, b, ha, hb, rfl⟩ := mapM₂_eq_some.mp hargs
  cases (imm.eval_immediate hvalue).symm.trans hb
  have hneg : negated = -value := by
    rw [Word.negate?] at hnegated
    split at hnegated
    · cases hnegated
    · exact (Option.some.inj hnegated).symm
  have hword : (BitVec.ofInt imm.size negated).setWidth dest.size =
      -(BitVec.ofInt imm.size value).setWidth dest.size := by
    rw [hneg, BitVec.ofInt_neg, BitVec.setWidth_neg_of_le (Nat.le_of_eq hwidth.symm)]
  have hflip : ((i.setOpcode (.generic flipped)).replaceOperand 2
      (imm.setImmediate negated)).Computes flipped i.relation dest
      [lhs, imm.setImmediate negated] := by
    refine ⟨rfl, ?_, hdefines.2.1, rfl, by simp [hoperands]⟩
    show i.flags.plain = flipped.flags
    rw [hcomputes.flags, hdefines.2.2.1, hdefines.2.2.2]
  refine Stands.finish hflip (.refl _ s) hassign
    (mapM₂_eq_some.mpr ⟨a, _, ha, Operand.eval_immediate rfl, rfl⟩) ?_
  rcases hflipped with ⟨rfl, rfl⟩ | ⟨rfl, rfl⟩
  all_goals
    obtain ⟨x, hx, hw⟩ := Option.bind_eq_some_iff.mp hw
    cases hw
  · show (a.word M dest.size).bind (fun x => some (x -
      (BitVec.ofInt imm.size negated).setWidth dest.size)) = _
    rw [hx, Option.bind_some, hword, BitVec.sub_neg]
  · show (a.word M dest.size).bind (fun x => some (x +
      (BitVec.ofInt imm.size negated).setWidth dest.size)) = _
    rw [hx, Option.bind_some, hword, ← BitVec.sub_eq_add_neg]

/-- The operands of an instruction have the same values when a constant is in a register instead. -/
theorem uses_replaceOperand {op : GenericOp} {k : Nat} {imm : Operand} {v : Int} {s : State M}
    {args : List (Arg M.pointerBits)} (hargs : i.uses.mapM (·.eval f.frame s) = some args)
    (hflags : i.flags.plain = op.flags)
    (huse : op = .store ∨ (op.isThreeAddress ∨ op = .cmp) ∧ 0 < k) (hk : i.operand? k = some imm)
    (hv : imm.immediate? = some v) (hi : i.Within (· < next)) :
    (i.replaceOperand k (.virtualReg next imm.ty)).def? = i.def? ∧
      (i.replaceOperand k (.virtualReg next imm.ty)).uses.mapM
        (·.eval f.frame (s.write next ⟨imm.size, BitVec.ofInt imm.size v⟩)) = some args := by
  have hhasDef : (i.replaceOperand k (.virtualReg next imm.ty)).hasDef = i.hasDef := by
    show (!(i.operands.set k _).isEmpty && !i.isEffect) = (!i.operands.isEmpty && !i.isEffect)
    cases i.operands with
    | nil => rfl
    | cons o os => cases k <;> rfl
  have hnew : (Operand.virtualReg next imm.ty).eval f.frame
      (s.write next ⟨imm.size, BitVec.ofInt imm.size v⟩) = imm.eval f.frame s := by
    rw [imm.eval_immediate hv]
    exact Operand.eval_virtualReg_write _ _ _
  have hrest : ∀ o ∈ i.operands, o.eval f.frame
      (s.write next ⟨imm.size, BitVec.ofInt imm.size v⟩) = o.eval f.frame s :=
    fun o ho => Operand.eval_write (unallocated?_ne (hi o ho) (Nat.le_refl _)) _
  rw [Instruction.uses] at hargs
  rw [Instruction.def?, Instruction.def?, Instruction.uses, hhasDef]
  cases hdef : i.hasDef with
  | false =>
    rw [hdef] at hargs
    exact ⟨rfl, mapM_set hk hnew hrest hargs⟩
  | true =>
    -- what is defined stands first, and a store defines nothing
    have hpos : 0 < k := by
      rcases huse with rfl | ⟨-, hpos⟩
      · have hstore : i.isStore := by
          show i.flags.plain.store
          rw [hflags]
          rfl
        simp [Instruction.hasDef, Instruction.isEffect, hstore] at hdef
      · exact hpos
    obtain ⟨n, rfl⟩ : ∃ n, k = n + 1 := ⟨k - 1, by omega⟩
    cases hoperands : i.operands with
    | nil => simp [Instruction.operand?, hoperands] at hk
    | cons dest sources =>
      rw [Instruction.operand?, hoperands] at hk
      rw [hoperands] at hrest
      rw [hdef, hoperands] at hargs
      simp only [if_true, Instruction.operands_replaceOperand, hoperands, List.set_cons_succ,
        List.head?_cons, List.tail_cons, true_and]
      exact mapM_set hk hnew (fun o ho => hrest o (by simp [ho])) hargs

theorem stands_materialize {op : GenericOp} {k : Nat} {imm : Operand} (hop : i.generic? = some op)
    (huse : op = .store ∨ (op.isThreeAddress ∨ op = .cmp) ∧ 0 < k) (hk : i.operand? k = some imm)
    (himm : imm.isImmediate) (hi : i.Within (· < next)) :
    Stands M next f i [loadImmediate (.virtualReg next imm.ty) imm,
      i.replaceOperand k (.virtualReg next imm.ty)] := by
  intro s x s' h
  obtain ⟨v, hv⟩ := Operand.isImmediate_iff.mp himm
  rw [Function.runCode_singleton] at h
  obtain ⟨e, he, happly⟩ := Option.bind_eq_some_iff.mp h
  rw [f.effectAt_eq hop] at he
  obtain ⟨op', args, hexec⟩ := effectOf_eq_some.mp he
  cases hop.symm.trans hexec.generic
  obtain ⟨hdef, huses⟩ := uses_replaceOperand hexec.evaluates hexec.flags huse hk hv hi
  have hexec' := hexec.transfer (j := i.replaceOperand k (.virtualReg next imm.ty))
    (t := s.write next ⟨imm.size, BitVec.ofInt imm.size v⟩) (g := f) rfl rfl rfl hdef rfl huses
  obtain ⟨t, ht, hagree⟩ := ((Agree.refl _ s).write_new (Nat.le_refl next) _).apply happly
  refine ⟨t, ?_, hagree⟩
  rw [runCode_loadImmediate hv, Function.runCode_singleton, hexec'.effectAt_eq, Option.bind_some,
    ht]

/-! ## Addresses -/

/-- An address put into a register twice, first the page and then the sum with the offset. -/
theorem assign_twice {a : Arch} (hM : a.Models M) {dest : Operand}
    (hty : dest.ty = a.target.pointerType)
    (hphysical : ∀ r, dest.kind = .physicalReg r →
      ∃ root ∈ a.target.passing, r = a.target.registers.withWidth root dest.size)
    {s s' : State M} {v w : BitVec dest.size} (h : s.assign dest ⟨dest.size, w⟩ = some s') :
    ∃ t, s.assign dest ⟨dest.size, v⟩ = some t ∧
      dest.eval f.frame t = some (.bits ⟨dest.size, v⟩) ∧
      t.assign dest ⟨dest.size, w⟩ = some s' := by
  obtain ⟨kind, ty, regClass⟩ := dest
  cases hty
  rw [State.assign] at h
  split at h
  · next r hkind =>
    cases hkind
    cases h
    refine ⟨_, rfl, ?_, ?_⟩
    · simp [Operand.eval, State.write, Bits.read?]
    · simp only [State.assign, State.write, Option.some.injEq]
      congr 1
      funext x
      split <;> rfl
  · next r hkind =>
    cases hkind
    cases h
    obtain ⟨root, hroot, hr⟩ := hphysical r rfl
    have hlaws : ∀ r, r = a.target.registers.withWidth root a.target.pointerBits →
        ∀ p (v w : BitVec a.target.pointerBits),
          M.readPhysical (M.writePhysical p r ⟨_, v⟩) r a.target.pointerBits = some v ∧
          M.writePhysical (M.writePhysical p r ⟨_, v⟩) r ⟨_, w⟩ = M.writePhysical p r ⟨_, w⟩ := by
      rintro _ rfl p v w
      exact ⟨hM.read_write root hroot p v, hM.write_write root hroot p v w⟩
    obtain ⟨hread, hwrite⟩ := hlaws r hr s.physical v w
    refine ⟨_, rfl, Option.map_eq_some_iff.mpr ⟨v, hread, rfl⟩, ?_⟩
    exact congrArg (fun p => some ({ s with physical := p } : State M)) hwrite
  · cases h

theorem stands_address {a : Arch} (hM : a.Models M) {dest source : Operand} {rest : List Operand}
    {symbol : String} (hop : i.generic? = some .globalAddress)
    (hoperands : i.operands = dest :: source :: rest) (hsymbol : source.symbol? = some symbol)
    (hty : dest.ty = a.target.pointerType)
    (hphysical : ∀ r, dest.kind = .physicalReg r →
      ∃ root ∈ a.target.passing, r = a.target.registers.withWidth root dest.size) :
    Stands M next f i
      [(AArch64.Op.adrp.on [dest, .global symbol source.ty]).markExpanded,
        (Instruction.generic .add
          [dest, dest, .global (":lo12:" ++ symbol) source.ty]).markExpanded] := by
  intro s x s' h
  obtain ⟨rfl, args, w, hargs, hw, hassign⟩ := run_computes hop rfl hoperands h
  have hsource : source.eval f.frame s = some (.symbol symbol) := by
    obtain ⟨kind, ty, regClass⟩ := source
    cases kind <;> cases hsymbol <;> rfl
  obtain ⟨c, cs, hc, -, rfl⟩ := mapM_cons_eq_some.mp hargs
  cases hsource.symm.trans hc
  have hwidth : dest.size = M.pointerBits := by
    rw [hM.pointerBits, Operand.size, hty]
    rfl
  have hw : w = (M.symbol symbol).setWidth dest.size := by
    match cs, hw with
    | [], hw => exact (Option.some.inj hw).symm
  subst hw
  obtain ⟨t, ht, heval, hassign'⟩ := assign_twice (f := f) hM hty hphysical
    (v := (M.page symbol).setWidth dest.size) hassign
  have hpage : ∀ is, f.runCode ((AArch64.Op.adrp.on
      [dest, .global symbol source.ty]).markExpanded :: is) s = f.runCode is t := by
    intro is
    have heffect : f.effectAt s (AArch64.Op.adrp.on [dest, .global symbol source.ty]).markExpanded =
        some (.assign dest ⟨dest.size, (M.page symbol).setWidth dest.size⟩) := rfl
    rw [Function.runCode, heffect]
    simp only [Option.bind_eq_bind, Option.bind_some, State.apply, ht, Option.map_some]
  have hsum : (M.page symbol).setWidth dest.size +
      (M.symbol (":lo12:" ++ symbol)).setWidth dest.size = (M.symbol symbol).setWidth dest.size := by
    rw [← BitVec.setWidth_add _ _ (Nat.le_of_eq hwidth), Interpretation.page, BitVec.sub_add_cancel]
  refine ⟨s', ?_, .refl _ s'⟩
  rw [hpage]
  refine ((computes_generic rfl _ _).runCode_eq (mapM₂_eq_some.mpr ⟨_, _, heval, rfl, rfl⟩) ?_
    hassign').trans rfl
  show some (((M.page symbol).setWidth dest.size).setWidth dest.size +
    (M.symbol (":lo12:" ++ symbol)).setWidth dest.size) = _
  rw [BitVec.setWidth_eq, hsum]

/-! ## Compares -/

theorem eval_value {o : Operand} (ho : o.isRegLike ∨ o.isImmediate) {frame : Frame} {s : State M}
    {a : Arg M.pointerBits} (h : o.eval frame s = some a) :
    ∃ v : BitVec o.size, a = .bits ⟨o.size, v⟩ := by
  obtain ⟨kind, ty, regClass⟩ := o
  cases kind with
  | virtualReg r | parameter r | physicalReg r =>
    obtain ⟨v, -, rfl⟩ := Option.map_eq_some_iff.mp h
    exact ⟨v, rfl⟩
  | immediate v =>
    cases h
    exact ⟨_, rfl⟩
  | _ => simp [Operand.isRegLike, Operand.isImmediate] at ho

/-- The bit that a compare gives. -/
def bit (width : Nat) (b : Bool) : BitVec width := if b then 1 else 0

theorem compute_cmp {r : Relation} {width w : Nat} {x : BitVec w} {b : Arg M.pointerBits}
    {y : BitVec w} (hy : b.word M w = some y) :
    compute M .cmp (some r) width [.bits ⟨w, x⟩, b] = some (bit width (r.holds x y)) := by
  show (b.word M w).bind (fun y => some (if r.holds x y then 1 else 0)) = _
  rw [hy]
  rfl

theorem run_compare {dest lhs rhs : Operand} {r : Relation} {s s' : State M} {x : Option Exit}
    (hop : i.generic? = some .cmp) (hrelation : i.relation = some r)
    (hoperands : i.operands = [dest, lhs, rhs]) (hlhs : lhs.isRegLike ∨ lhs.isImmediate)
    (hrhs : rhs.isRegLike ∨ rhs.isImmediate) (h : f.runCode [i] s = some (x, s')) :
    x = none ∧ ∃ (u : BitVec lhs.size) (v : BitVec rhs.size),
      lhs.eval f.frame s = some (.bits ⟨lhs.size, u⟩) ∧
      rhs.eval f.frame s = some (.bits ⟨rhs.size, v⟩) ∧
      s.assign dest ⟨dest.size, bit dest.size (r.holds u (v.setWidth lhs.size))⟩ = some s' := by
  obtain ⟨rfl, args, w, hargs, hw, hassign⟩ := run_computes hop rfl hoperands h
  obtain ⟨a, b, ha, hb, rfl⟩ := mapM₂_eq_some.mp hargs
  obtain ⟨u, rfl⟩ := eval_value hlhs ha
  obtain ⟨v, rfl⟩ := eval_value hrhs hb
  rw [produce_eq_compute rfl, hrelation, compute_cmp (y := v.setWidth lhs.size) rfl] at hw
  cases hw
  exact ⟨rfl, u, v, ha, hb, hassign⟩

theorem holds_swapped {m n : Nat} (h : m = n) {r : Relation} (hr : r = .gt ∨ r = .le)
    (x : BitVec m) (y : BitVec n) :
    r.swapped.holds y (x.setWidth n) = r.holds x (y.setWidth m) := by
  subst h
  rw [BitVec.setWidth_eq, BitVec.setWidth_eq]
  rcases hr with rfl | rfl <;> rfl

theorem bit_xor_one (width : Nat) (b : Bool) : bit width b ^^^ 1 = bit width !b := by
  cases b <;> simp [bit]

theorem runCode_difference {lhs rhs : Operand} {s : State M} {u : BitVec lhs.size}
    {v : BitVec rhs.size} (hu : lhs.eval f.frame s = some (.bits ⟨lhs.size, u⟩))
    (hv : rhs.eval f.frame s = some (.bits ⟨rhs.size, v⟩)) (is : List Instruction) :
    f.runCode (Riscv.exclusiveOr (.virtualReg next lhs.ty) lhs rhs :: is) s =
      f.runCode is (s.write next ⟨lhs.ty.bits, u ^^^ v.setWidth lhs.size⟩) := by
  refine (computes_exclusiveOr _ _ _).runCode_eq (mapM₂_eq_some.mpr ⟨_, _, hu, hv, rfl⟩) ?_ rfl
  show some (u.setWidth lhs.size ^^^ v.setWidth lhs.size) = _
  rw [BitVec.setWidth_eq]
  rfl

/-- Words are equal if their difference is less than one, where there is a one. -/
theorem ult_one_xor {w : Nat} (hw : 0 < w) (x y : BitVec w) :
    (x ^^^ y).ult (BitVec.ofInt w 1) = (x == y) := by
  have hone : (BitVec.ofInt w 1).toNat = 1 := by
    have hlt : 1 < 2 ^ w := Nat.one_lt_two_pow (by omega)
    rw [BitVec.toNat_ofInt, Int.emod_eq_of_lt (by decide) (by exact_mod_cast hlt)]
    rfl
  rw [Bool.eq_iff_iff, BitVec.ult, hone, decide_eq_true_eq, beq_iff_eq, Nat.lt_one_iff,
    ← BitVec.xor_eq_zero_iff]
  exact (BitVec.toNat_eq (x := x ^^^ y) (y := 0#w)).symm

theorem zero_ult_xor {w : Nat} (x y : BitVec w) : (0 : BitVec w).ult (x ^^^ y) = (x != y) := by
  rw [Bool.eq_iff_iff, BitVec.ult, decide_eq_true_eq, bne_iff_ne, ne_eq, ← BitVec.xor_eq_zero_iff,
    BitVec.toNat_eq]
  simp only [BitVec.ofNat_eq_ofNat, BitVec.toNat_ofNat, Nat.zero_mod]
  omega

section Compare

variable {dest lhs rhs : Operand} (hop : i.generic? = some .cmp)
  (hoperands : i.operands = [dest, lhs, rhs]) (hlhs : lhs.isRegLike ∨ lhs.isImmediate)
  (hrhs : rhs.isRegLike ∨ rhs.isImmediate)
include hop hoperands hlhs hrhs

theorem stands_swap {r : Relation} (hrelation : i.relation = some r) (hr : r = .gt ∨ r = .le)
    (hwidth : lhs.size = rhs.size) :
    Stands M next f i [Riscv.compare r.swapped dest rhs lhs] := by
  intro s x s' h
  obtain ⟨rfl, u, v, hu, hv, hassign⟩ := run_compare hop hrelation hoperands hlhs hrhs h
  refine Stands.finish (computes_compare _ _ _ _) (.refl _ s) hassign
    (mapM₂_eq_some.mpr ⟨_, _, hv, hu, rfl⟩) ?_
  rw [produce_eq_compute rfl, compute_cmp (y := u.setWidth rhs.size) rfl, holds_swapped hwidth hr]

theorem stands_notLess (hrelation : i.relation = some .ge) :
    Stands M next f i [Riscv.compare .lt (.virtualReg next dest.ty) lhs rhs,
      Riscv.exclusiveOr dest (.virtualReg next dest.ty) (.immediate 1 dest.ty)] := by
  intro s x s' h
  obtain ⟨rfl, u, v, hu, hv, hassign⟩ := run_compare hop hrelation hoperands hlhs hrhs h
  let less := bit dest.size (Relation.lt.holds u (v.setWidth lhs.size))
  have hless : ∀ is, f.runCode (Riscv.compare .lt (.virtualReg next dest.ty) lhs rhs :: is) s =
      f.runCode is (s.write next ⟨dest.ty.bits, less⟩) := by
    intro is
    refine (computes_compare _ _ _ _).runCode_eq (mapM₂_eq_some.mpr ⟨_, _, hu, hv, rfl⟩) ?_ rfl
    rw [produce_eq_compute rfl]
    exact compute_cmp rfl
  rw [hless]
  refine Stands.finish (computes_exclusiveOr _ _ _)
    ((Agree.refl _ s).write_new (Nat.le_refl next) _) hassign
    (mapM₂_eq_some.mpr ⟨_, _, Operand.eval_virtualReg_write _ _ _, Operand.eval_immediate rfl,
      rfl⟩) ?_
  show some (less.setWidth dest.size ^^^ (BitVec.ofInt dest.size 1).setWidth dest.size) = _
  have hnot : Relation.ge.holds u (v.setWidth lhs.size) =
      !Relation.lt.holds u (v.setWidth lhs.size) := BitVec.sle_eq_not_slt
  rw [BitVec.setWidth_eq, BitVec.setWidth_eq, hnot]
  exact congrArg some (bit_xor_one _ _)

theorem stands_equal (hrelation : i.relation = some .eq) (hwidth : 0 < lhs.size) :
    Stands M next f i [Riscv.exclusiveOr (.virtualReg next lhs.ty) lhs rhs,
      Riscv.compare .ltu dest (.virtualReg next lhs.ty) (.immediate 1 lhs.ty)] := by
  intro s x s' h
  obtain ⟨rfl, u, v, hu, hv, hassign⟩ := run_compare hop hrelation hoperands hlhs hrhs h
  rw [runCode_difference hu hv]
  refine Stands.finish (computes_compare _ _ _ _)
    ((Agree.refl _ s).write_new (Nat.le_refl next) _) hassign
    (mapM₂_eq_some.mpr ⟨_, _, Operand.eval_virtualReg_write _ _ _, Operand.eval_immediate rfl,
      rfl⟩) ?_
  rw [produce_eq_compute rfl]
  refine (compute_cmp rfl).trans (congrArg (fun b => some (bit dest.size b)) ?_)
  show (u ^^^ v.setWidth lhs.size).ult ((BitVec.ofInt lhs.size 1).setWidth lhs.size) =
    (u == v.setWidth lhs.size)
  rw [BitVec.setWidth_eq]
  exact ult_one_xor hwidth u _

theorem stands_different (hrelation : i.relation = some .ne)
    (hzero : ∀ p, M.readPhysical p Riscv.zero lhs.size = some 0) :
    Stands M next f i [Riscv.exclusiveOr (.virtualReg next lhs.ty) lhs rhs,
      Riscv.compare .ltu dest (.physicalReg Riscv.zero lhs.ty) (.virtualReg next lhs.ty)] := by
  intro s x s' h
  obtain ⟨rfl, u, v, hu, hv, hassign⟩ := run_compare hop hrelation hoperands hlhs hrhs h
  rw [runCode_difference hu hv]
  have hread : (Operand.physicalReg Riscv.zero lhs.ty).eval f.frame
      (s.write next ⟨lhs.ty.bits, u ^^^ v.setWidth lhs.size⟩) = some (.bits ⟨lhs.size, 0⟩) :=
    Option.map_eq_some_iff.mpr ⟨0, hzero _, rfl⟩
  refine Stands.finish (computes_compare _ _ _ _)
    ((Agree.refl _ s).write_new (Nat.le_refl next) _) hassign
    (mapM₂_eq_some.mpr ⟨_, _, hread, Operand.eval_virtualReg_write _ _ _, rfl⟩) ?_
  rw [produce_eq_compute rfl]
  refine (compute_cmp rfl).trans (congrArg (fun b => some (bit dest.size b)) ?_)
  show (0 : BitVec lhs.size).ult ((u ^^^ v.setWidth lhs.size).setWidth lhs.size) =
    (u != v.setWidth lhs.size)
  rw [BitVec.setWidth_eq]
  exact zero_ult_xor u _

end Compare

end Target

/-! ## All rewrites -/

namespace Machine.Instruction

/-- All operands of an operation with two sources have one width, and so have both sides of a
compare. -/
def OneWidth (i : Instruction) : Prop :=
  match i.generic? with
  | some .cmp => ∀ x ∈ i.operands.tail, ∀ y ∈ i.operands.tail, x.size = y.size
  | some op => op.isThreeAddress → ∀ x ∈ i.operands, ∀ y ∈ i.operands, x.size = y.size
  | none => True

/-- What the expansions of an instruction rely on. -/
structure Regular (a : Arch) (i : Instruction) : Prop where
  oneWidth : i.OneWidth
  compared : i.generic? = some .cmp →
    ∀ o ∈ i.operands.tail, (o.isRegLike ∨ o.isImmediate) ∧
      (a = .riscv32 → i.relation = some .eq → 0 < o.size)
  converts : ∀ {op dest source value}, i.generic? = some op → op.isWidthConversion →
    i.operands = [dest, source] → source.immediate? = some value →
    Word.IsSigned value ∧ op.Converts value source.size dest.size
  address : i.generic? = some .globalAddress → ∃ dest name,
    i.operands = [dest, .global name a.target.pointerType] ∧ dest.ty = a.target.pointerType ∧
    ∀ r, dest.kind = .physicalReg r →
      ∃ root ∈ a.target.passing, r = a.target.registers.withWidth root dest.size

variable {i : Instruction}

theorem oneWidth_of_threeAddress {op : GenericOp} (hop : i.generic? = some op)
    (hthree : op.isThreeAddress) :
    i.OneWidth ↔ ∀ x ∈ i.operands, ∀ y ∈ i.operands, x.size = y.size := by
  rw [OneWidth, hop]
  cases op <;> first | exact ⟨fun h => h rfl, fun h _ => h⟩ | cases hthree

theorem oneWidth_of_cmp (hop : i.generic? = some .cmp) :
    i.OneWidth ↔ ∀ x ∈ i.operands.tail, ∀ y ∈ i.operands.tail, x.size = y.size := by
  rw [OneWidth, hop]

theorem oneWidth_of_other
    (h : ∀ op, i.generic? = some op → op ≠ .cmp ∧ op.isThreeAddress = false) : i.OneWidth := by
  rw [OneWidth]
  split
  · next hop => exact absurd rfl (h _ hop).1
  · next op _ hop =>
    intro hthree
    simp [(h op hop).2] at hthree
  · trivial

instance (i : Instruction) : Decidable i.OneWidth :=
  if hcmp : i.generic? = some .cmp then decidable_of_iff _ (oneWidth_of_cmp hcmp).symm
  else match hop : i.generic? with
    | none => isTrue (oneWidth_of_other fun _ h => nomatch hop.symm.trans h)
    | some op =>
      if hthree : op.isThreeAddress then
        decidable_of_iff _ (oneWidth_of_threeAddress hop hthree).symm
      else isTrue (oneWidth_of_other fun op' h => by
        cases hop.symm.trans h
        exact ⟨fun heq => hcmp (heq ▸ hop), by simpa using hthree⟩)

end Machine.Instruction

namespace Target

variable {M : Interpretation} {f : Function} {i : Instruction} {next : Nat}

/-- **What takes the place of an instruction has its effect**, up to new registers. -/
theorem Rewrite.stands {a : Arch} (hM : a.Models M) {used : Nat} {new : List Instruction}
    (h : Rewrite a next i used new) (hi : i.Within (· < next)) (hregular : i.Regular a)
    (hexpandable : a.target.isExpandable i) : Stands M next f i new := by
  cases h with
  | materialize hop huse hk himm => exact stands_materialize hop huse hk himm hi
  | convert hop hconversion hoperands hvalue hfolded =>
    obtain ⟨hword, hconverts⟩ := hregular.converts hop hconversion hoperands hvalue
    exact stands_convert hop hconversion hoperands hvalue hfolded hword hconverts
  | remainder ha hop hdivision hoperands hlhs =>
    exact stands_remainder hop hdivision hoperands hi
  | flip ha hop hflipped hfirst hk hvalue hnegated hfits =>
    refine stands_flip hop hflipped hk hvalue hnegated fun dest hdest => ?_
    have hthree : _ := (Instruction.oneWidth_of_threeAddress hop
      (by rcases hflipped with ⟨rfl, -⟩ | ⟨rfl, -⟩ <;> rfl)).mp hregular.oneWidth
    exact hthree _ (List.mem_of_getElem? hk) dest (List.mem_of_head? hdest)
  | address ha hop hoperands hsymbol =>
    obtain ⟨dest, name, hoperands', hty, hphysical⟩ := hregular.address hop
    cases hoperands.symm.trans hoperands'
    exact stands_address hM hop hoperands hsymbol hty hphysical
  | @swap relation dest lhs rhs ha hop hrelation hswap hoperands hlhs =>
    have hcompared := hregular.compared hop
    have hwidth := (Instruction.oneWidth_of_cmp hop).mp hregular.oneWidth
    rw [hoperands] at hcompared hwidth
    exact stands_swap hop hoperands (hcompared lhs (by simp)).1 (hcompared rhs (by simp)).1 hrelation
      hswap (hwidth lhs (by simp) rhs (by simp))
  | @notLess dest lhs rhs ha hop hrelation hoperands hlhs =>
    have hcompared := hregular.compared hop
    rw [hoperands] at hcompared
    exact stands_notLess hop hoperands (hcompared lhs (by simp)).1 (hcompared rhs (by simp)).1
      hrelation
  | @equal dest lhs rhs ha hop hrelation hoperands hlhs =>
    have hcompared := hregular.compared hop
    rw [hoperands] at hcompared
    exact stands_equal hop hoperands (hcompared lhs (by simp)).1 (hcompared rhs (by simp)).1
      hrelation ((hcompared lhs (by simp)).2 ha hrelation)
  | @different dest lhs rhs ha hop hrelation hoperands hlhs =>
    have hcompared := hregular.compared hop
    rw [hoperands] at hcompared
    subst ha
    obtain ⟨_, -, -, hwide⟩ := Riscv.isExpandable_cases hexpandable
    have hnarrow : lhs.size ≤ 32 := by
      rw [Riscv.isTooWide, hoperands, List.any_eq_false] at hwide
      have hlhs' := hwide lhs (by simp)
      rcases (hcompared lhs (by simp)).1 with hkind | hkind <;> simpa [hkind] using hlhs'
    exact stands_different hop hoperands (hcompared lhs (by simp)).1 (hcompared rhs (by simp)).1
      hrelation fun p => hM.zero rfl p _ hnarrow

/-! ## Folded loads -/

theorem toNat_ofInt_self (n : Nat) : (BitVec.ofInt n n).toNat = n := by
  rw [BitVec.toNat_ofInt]
  exact_mod_cast Nat.mod_eq_of_lt Nat.lt_two_pow_self

/-- **A load that extends what it loads** has the effect of the load and the extension, up to the
register that was loaded. -/
theorem stands_extendingLoad {load zext : Instruction} {dest source loaded : Operand}
    {rest : List Operand} {r : RegId} (hload : load.opcode = .generic .load)
    (hzext : zext.generic? = some .zext) (hloads : load.operands = loaded :: rest)
    (hzexts : ∃ extra, zext.operands = dest :: source :: extra)
    (hloaded : loaded.unallocated? = some r) (hsource : source.kind = .virtualReg r)
    (hwidth : source.size = loaded.size) {s s' : State M} {x : Option Exit}
    (h : f.runCode [load, zext] s = some (x, s')) :
    ∃ t, f.runCode [extendingLoad load dest loaded rest] s = some (x, t) ∧
      Agree (· ≠ r) s' t := by
  obtain ⟨extra, hzexts⟩ := hzexts
  have hop : load.generic? = some .load := by rw [Instruction.generic?, hload]; rfl
  have hcomputes := Instruction.Computes.of_run hop rfl hloads h
  obtain ⟨args, w, s₁, hargs, hw, hs₁, h⟩ := hcomputes.run_cases h
  obtain ⟨rfl, args', w', hargs', hw', hassign⟩ := run_computes hzext rfl hzexts h
  -- the load reads a place with room, and writes the virtual register
  obtain ⟨address, room, rfl, hroom, rfl⟩ : ∃ address room, args = [.place address room] ∧
      hasRoom room loaded.size ∧ w = s.memory.loadBits address loaded.size := by
    rcases args with _ | ⟨_ | ⟨address, room⟩, _ | _⟩ <;> try cases hw
    obtain ⟨hroom, hw⟩ := Option.ite_none_right_eq_some.mp hw
    exact ⟨address, room, rfl, hroom, (Option.some.inj hw).symm⟩
  obtain rfl : s₁ = s.write r ⟨loaded.size, s.memory.loadBits address loaded.size⟩ := by
    obtain ⟨kind, ty, regClass⟩ := loaded
    cases kind <;> cases hloaded <;> cases hs₁
    rfl
  -- the extension reads that register, at the same width
  have hread : source.eval f.frame
      (s.write r ⟨loaded.size, s.memory.loadBits address loaded.size⟩) =
      some (.bits ⟨loaded.size, s.memory.loadBits address loaded.size⟩) := by
    rw [Operand.eval, hsource, hwidth]
    simp [State.write, Bits.read?]
  obtain ⟨c, cs, hc, -, rfl⟩ := mapM_cons_eq_some.mp hargs'
  cases hread.symm.trans hc
  obtain rfl : w' = (s.memory.loadBits address loaded.size).setWidth dest.size := by
    cases cs with
    | nil => exact (Option.some.inj hw').symm
    | cons c cs => cases hw'
  have hagree : Agree (· ≠ r) (s.write r ⟨loaded.size, s.memory.loadBits address loaded.size⟩) s := by
    refine ⟨rfl, fun x hx => ?_, rfl, rfl, rfl⟩
    simp only [State.write, if_neg hx]
  obtain ⟨t, ht, hst⟩ := hagree.assign hassign
  refine ⟨t, ?_, hst⟩
  have hextending : (extendingLoad load dest loaded rest).Computes .zextLoad load.relation dest
      (.immediate loaded.size loaded.ty :: rest) := by
    refine ⟨rfl, ?_, rfl, rfl, rfl⟩
    show Flags.plain (load.flags.union { expanded := true }) = GenericOp.load.flags
    rw [← hcomputes.flags]
    simp [Flags.plain, Flags.union]
  refine (hextending.runCode_eq (mapM_cons_eq_some.mpr ⟨_, _, Operand.eval_immediate rfl, hargs, rfl⟩)
    ?_ ht).trans rfl
  show (if hasRoom room (BitVec.ofInt loaded.size loaded.size).toNat then
    some ((s.memory.loadBits address (BitVec.ofInt loaded.size loaded.size).toNat).setWidth dest.size)
    else none) = _
  rw [toNat_ofInt_self, if_pos hroom]

end Target

end Retarget
