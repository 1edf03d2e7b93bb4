import Mathlib.Algebra.Ring.Int.Defs
import Retarget.Lowering.Module
import Retarget.Proofs.Lowering.Invariants
import Retarget.Proofs.Shape.Basic

/-!
# Operands of lowered code

Lowering numbers registers, parameters and slots from one counter, names physical registers only to
pass values in them, and takes constants from the module.  So every instruction of a lowered
function is plain (`plain_lowerFunction`): it has the flags of its operation, its ids are below the
counter, its physical registers are views of registers that values are passed in, and its constants
are words.
-/

namespace Retarget

open Machine

/-- The full-width registers that values are passed in. -/
def Target.passing (t : Target) : List RegId :=
  t.convention.arguments ++ t.convention.floatArguments ++ t.convention.results
    ++ t.convention.floatResults ++ [t.registers.returnBuffer]

/-- Whether a number is a signed 64-bit word. -/
def Word.IsSigned (v : Int) : Prop := -(2 ^ 63) ≤ v ∧ v < 2 ^ 63

theorem Word.isSigned_toInt (v : Int64) : IsSigned v.toInt :=
  ⟨v.le_toInt, v.toInt_lt⟩

theorem Word.isSigned_signed (v : Int) : IsSigned (signed 64 v) :=
  ⟨Int.le_bmod (by decide), Int.bmod_lt (by decide)⟩

theorem Word.isSigned_of_fitSigned {v w : Int} (h : fitSigned v = .ok w) : IsSigned w := by
  rw [fitSigned] at h
  split at h
  · next hv =>
    cases h
    exact hv
  · cases h

namespace Machine

variable {t : Target} {next next' : Nat} {o : Operand}

namespace Operand

/-- An operand of lowered code, while the ids below `next` are in use. -/
structure Plain (t : Target) (next : Nat) (o : Operand) : Prop where
  id_lt : ∀ r, o.unallocated? = some r → r < next
  passes : ∀ r, o.kind = .physicalReg r → ∃ root ∈ t.passing, r = t.registers.withWidth root o.size
  word : ∀ v, o.immediate? = some v → Word.IsSigned v

theorem Plain.mono (h : o.Plain t next) (hle : next ≤ next') : o.Plain t next' :=
  ⟨fun r hr => Nat.lt_of_lt_of_le (h.id_lt r hr) hle, h.passes, h.word⟩

/-- A register or a constant. -/
structure IsValue (t : Target) (next : Nat) (o : Operand) : Prop where
  plain : o.Plain t next
  isRegLike_or : o.isRegLike ∨ o.isImmediate

/-- A register. -/
structure IsRegister (t : Target) (next : Nat) (o : Operand) : Prop where
  plain : o.Plain t next
  isRegLike : o.isRegLike

/-- A place in memory. -/
structure IsPlainPlace (t : Target) (next : Nat) (o : Operand) : Prop where
  plain : o.Plain t next
  isPlace : o.isPlace

theorem IsValue.mono (h : o.IsValue t next) (hle : next ≤ next') : o.IsValue t next' :=
  ⟨h.plain.mono hle, h.isRegLike_or⟩

theorem IsRegister.mono (h : o.IsRegister t next) (hle : next ≤ next') : o.IsRegister t next' :=
  ⟨h.plain.mono hle, h.isRegLike⟩

theorem IsPlainPlace.mono (h : o.IsPlainPlace t next) (hle : next ≤ next') :
    o.IsPlainPlace t next' :=
  ⟨h.plain.mono hle, h.isPlace⟩

theorem IsRegister.isValue (h : o.IsRegister t next) : o.IsValue t next :=
  ⟨h.plain, .inl h.isRegLike⟩

theorem isRegister_virtualReg {r : RegId} (h : r < next) (ty : LowType) :
    (virtualReg r ty).IsRegister t next :=
  ⟨⟨fun _ hr => by cases hr; exact h, nofun, nofun⟩, rfl⟩

theorem isRegister_parameter {r : RegId} (h : r < next) (ty : LowType) :
    (parameter r ty).IsRegister t next :=
  ⟨⟨fun _ hr => by cases hr; exact h, nofun, nofun⟩, rfl⟩

theorem isRegister_physicalReg {root : RegId} (h : root ∈ t.passing) (ty : LowType) :
    (physicalReg (t.registers.withWidth root ty.bits) ty).IsRegister t next :=
  ⟨⟨nofun, fun r hr => ⟨root, h, by cases hr; rfl⟩, nofun⟩, rfl⟩

theorem isValue_immediate {v : Int} (h : Word.IsSigned v) (ty : LowType) :
    (immediate v ty).IsValue t next :=
  ⟨⟨nofun, nofun, fun _ hv => by cases hv; exact h⟩, .inr rfl⟩

theorem isPlainPlace_memory {r : RegId} (h : r < next) (offset : Int) (ty : LowType) :
    (memory r offset ty).IsPlainPlace t next :=
  ⟨⟨fun _ hr => by cases hr; exact h, nofun, nofun⟩, rfl⟩

theorem isPlainPlace_stack (slot : Slot) (offset : Int) (ty : LowType) :
    (stack slot offset ty).IsPlainPlace t next :=
  ⟨⟨nofun, nofun, nofun⟩, rfl⟩

theorem plain_label (name : String) : (label name).Plain t next := ⟨nofun, nofun, nofun⟩

theorem plain_function (name : String) : (function name).Plain t next := ⟨nofun, nofun, nofun⟩

theorem plain_global (name : String) (ty : LowType) : (global name ty).Plain t next :=
  ⟨nofun, nofun, nofun⟩

end Operand

/-- What lowering keeps to for the operands of an operation. -/
def GenericOp.Suits (t : Target) (op : GenericOp) (operands : List Operand) : Prop :=
  match op with
  | .cmp | .sext | .zext | .trunc =>
    (∀ o ∈ operands.head?, o.isRegLike) ∧ ∀ o ∈ operands, o.isRegLike ∨ o.isImmediate
  | .and | .or | .xor | .lsl | .lsr | .loadImm | .mov | .movf => ∀ o ∈ operands.head?, o.isRegLike
  | .globalAddress => ∃ dest name, operands = [dest, .global name t.pointerType] ∧
      dest.isRegLike ∧ dest.ty = t.pointerType
  | _ => True

/-- An instruction of lowered code, while the ids below `next` are in use. -/
structure Instruction.Plain (t : Target) (next : Nat) (i : Instruction) : Prop where
  form : ∃ op, i.opcode = .generic op ∧ i.flags = op.flags ∧ op.Suits t i.operands
  operands : ∀ o ∈ i.operands, o.Plain t next

theorem Instruction.Plain.mono {i : Instruction} (h : i.Plain t next) (hle : next ≤ next') :
    i.Plain t next' :=
  ⟨h.form, fun o ho => (h.operands o ho).mono hle⟩

end Machine

namespace Lowering

variable {t : Target} {c : Scope} {s : State} {α β : Type}

def State.next (s : State) : Nat := s.function.nextId

/-- All code so far is plain, every id that is remembered is in use, and no register has to be
saved. -/
structure Tracked (t : Target) (s : State) : Prop where
  unsaved : s.function.usedCalleeSaved = []
  code : ∀ i ∈ s.code.toList, i.Plain t s.next
  blocks : s.function.All (·.Plain t s.next)
  temps : ∀ e ∈ s.temps, e.2 < s.next
  params : ∀ e ∈ s.params, e.2.1 < s.next
  homes : ∀ name parts, (name, Home.registers parts) ∈ s.aggregates → ∀ part ∈ parts, part.1 < s.next

/-- Where the step leads from `s`, the state is tracked and at least as many ids are in use, and `P`
holds of the answer. -/
structure Leads (t : Target) (s : State) (x : Lower α) (P : Nat → α → Prop) : Prop where
  ok : ∀ a s', x.run s = .ok (a, s') → Tracked t s' ∧ s.next ≤ s'.next ∧ P s'.next a

variable {P : Nat → α → Prop} {Q : Nat → β → Prop}

/-! ## Steps -/

/-- The ids in use stay in use. -/
def State.KeepsIds (s s' : State) : Prop := s.next ≤ s'.next

instance : IsPreorder State State.KeepsIds where
  refl _ := Nat.le_refl _
  trans _ _ _ := Nat.le_trans

theorem leads_iff_upholds {x : Lower α} :
    Leads t s x P ↔ Upholds State.KeepsIds (Tracked t) s x fun s' => P s'.next := by
  constructor
  · intro h
    refine ⟨fun a s' hrun => ?_⟩
    obtain ⟨hs', hle, ha⟩ := h.ok a s' hrun
    exact ⟨hle, hs', ha⟩
  · intro h
    refine ⟨fun a s' hrun => ?_⟩
    obtain ⟨hle, hs', ha⟩ := h.ok a s' hrun
    exact ⟨hs', hle, ha⟩

namespace Leads

theorem pure {a : α} (hs : Tracked t s) (h : P s.next a) : Leads t s (Pure.pure a) P :=
  leads_iff_upholds.mpr (.pure hs h)

theorem bind {x : Lower α} {g : α → Lower β} (hx : Leads t s x P)
    (hg : ∀ a s', Tracked t s' → s.next ≤ s'.next → P s'.next a → Leads t s' (g a) Q) :
    Leads t s (x >>= g) Q := by
  refine leads_iff_upholds.mpr ((leads_iff_upholds.mp hx).bind fun a s' hle hs' ha => ?_)
  exact leads_iff_upholds.mp (hg a s' hs' hle ha)

theorem get_bind {g : State → Lower β} (h : Leads t s (g s) Q) : Leads t s (get >>= g) Q :=
  ⟨h.ok⟩

theorem check {x : Result α} {P : α → Prop} (hs : Tracked t s) (h : ∀ a, x = .ok a → P a) :
    Leads t s (check x) fun _ a => P a :=
  leads_iff_upholds.mpr (.check hs h)

theorem unsupported (detail : String) : Leads t s (unsupported detail) P := ⟨nofun⟩

theorem unsupported_bind {g : α → Lower β} (detail : String) :
    Leads t s (Lowering.unsupported detail >>= g) Q :=
  ⟨nofun⟩

theorem modify {g : State → State} (hs : Tracked t (g s)) (hle : s.next ≤ (g s).next) :
    Leads t s (modify g) fun _ _ => True :=
  leads_iff_upholds.mpr (.modify hle hs trivial)

theorem forM {l : List α} {g : α → Lower Unit} {R : Nat → α → Prop} (hs : Tracked t s)
    (hR : ∀ a ∈ l, R s.next a) (hmono : ∀ n n' a, n ≤ n' → R n a → R n' a)
    (hg : ∀ a s', Tracked t s' → R s'.next a → Leads t s' (g a) fun _ _ => True) :
    Leads t s (l.forM g) fun _ _ => True := by
  refine leads_iff_upholds.mpr (.forM hs fun a ha s' hle hs' => ?_)
  exact leads_iff_upholds.mp (hg a s' hs' (hmono _ _ a hle (hR a ha)))

theorem mapM {l : List α} {g : α → Lower β} {R : Nat → α → Prop} (hs : Tracked t s)
    (hR : ∀ a ∈ l, R s.next a) (hmono : ∀ n n' a, n ≤ n' → R n a → R n' a)
    (hmono' : ∀ n n' b, n ≤ n' → Q n b → Q n' b)
    (hg : ∀ a s', Tracked t s' → R s'.next a → Leads t s' (g a) Q) :
    Leads t s (l.mapM g) fun n bs => ∀ b ∈ bs, Q n b := by
  refine leads_iff_upholds.mpr (.mapM hs (fun _ _ b hle => hmono' _ _ b hle)
    fun a ha s' hle hs' => ?_)
  exact leads_iff_upholds.mp (hg a s' hs' (hmono _ _ a hle (hR a ha)))

end Leads

theorem Tracked.push (hs : Tracked t s) {i : Instruction} (hi : i.Plain t s.next) :
    Tracked t { s with code := s.code.push i } := by
  refine ⟨hs.unsaved, fun j hj => ?_, hs.blocks, hs.temps, hs.params, hs.homes⟩
  rw [Array.toList_push] at hj
  rcases List.mem_append.mp hj with hj | hj
  · exact hs.code j hj
  · exact List.mem_singleton.mp hj ▸ hi

theorem Tracked.withFunction (hs : Tracked t s) {f : Machine.Function}
    (hblocks : f.blocks = s.function.blocks)
    (hsaved : f.usedCalleeSaved = s.function.usedCalleeSaved) (hle : s.next ≤ f.nextId) :
    Tracked t { s with function := f } := by
  refine ⟨hsaved.trans hs.unsaved, fun i hi => (hs.code i hi).mono hle, fun i hi => ?_,
    fun e he => Nat.lt_of_lt_of_le (hs.temps e he) hle,
    fun e he => Nat.lt_of_lt_of_le (hs.params e he) hle,
    fun name parts h part hpart => Nat.lt_of_lt_of_le (hs.homes name parts h part hpart) hle⟩
  have hmem : i ∈ s.function.instructions := by
    simpa [Machine.Function.instructions, hblocks] using hi
  exact (hs.blocks i hmem).mono hle

theorem leads_emit (hs : Tracked t s) {op : GenericOp} {operands : List Operand}
    (hoperands : ∀ o ∈ operands, o.Plain t s.next) (hop : op.Suits t operands) :
    Leads t s (emit op operands) fun _ _ => True :=
  .modify (hs.push ⟨⟨op, rfl, rfl, hop⟩, hoperands⟩) (Nat.le_refl _)

theorem leads_fresh (take : Machine.Function → Result (α × Machine.Function)) (hs : Tracked t s)
    (h : ∀ r, take s.function = .ok r → r.2.blocks = s.function.blocks ∧
      r.2.usedCalleeSaved = s.function.usedCalleeSaved ∧ s.next ≤ r.2.nextId ∧ P r.2.nextId r.1) :
    Leads t s (do
      let (a, function) ← check (take (← get).function)
      modify fun s => { s with function := function }
      return a) P := by
  refine .get_bind ⟨fun a s' hrun => ?_⟩
  cases htake : take s.function with
  | error e =>
    rw [htake] at hrun
    cases hrun
  | ok r =>
    rw [htake] at hrun
    cases hrun
    obtain ⟨hblocks, hsaved, hle, hP⟩ := h r htake
    exact ⟨hs.withFunction hblocks hsaved hle, hle, hP⟩

theorem leads_freshId (hs : Tracked t s) : Leads t s freshId fun n r => r < n := by
  refine leads_fresh (·.fresh) hs fun r hr => ?_
  cases Function.fresh_eq_ok hr
  exact ⟨rfl, rfl, Nat.le_succ _, Nat.lt_succ_self _⟩

theorem leads_freshReg (hs : Tracked t s) (ty : LowType) :
    Leads t s (freshReg ty) fun n o => o.IsRegister t n ∧ o.ty = ty :=
  (leads_freshId hs).bind fun _ _ hs' _ hr => .pure hs' ⟨Operand.isRegister_virtualReg hr ty, rfl⟩

theorem leads_freshSlot (hs : Tracked t s) (bytes : Nat) :
    Leads t s (freshSlot bytes) fun _ _ => True := by
  refine leads_fresh (·.addSlot _) hs fun r hr => ?_
  obtain ⟨r', hr', hr⟩ := bind_eq_ok.mp hr
  cases Function.fresh_eq_ok hr'
  cases hr
  exact ⟨rfl, rfl, Nat.le_succ _, trivial⟩

theorem leads_freshParameter (hs : Tracked t s) (ty : LowType) (isFloat isReturnBuffer : Bool) :
    Leads t s (freshParameter ty isFloat isReturnBuffer) fun n r => r < n := by
  refine leads_fresh (·.addParameter ty isFloat isReturnBuffer) hs fun r hr => ?_
  obtain ⟨r', hr', hr⟩ := bind_eq_ok.mp hr
  cases Function.fresh_eq_ok hr'
  cases hr
  exact ⟨rfl, rfl, Nat.le_succ _, Nat.lt_succ_self _⟩

theorem leads_tempReg (hs : Tracked t s) (id : Ir.TempId) (ty : LowType) :
    Leads t s (tempReg id ty) fun n o => o.IsRegister t n ∧ o.ty = ty := by
  refine .get_bind ?_
  split
  · next reg hlookup =>
    have hreg := hs.temps (id, reg) (mem_of_lookup_eq_some hlookup)
    exact .pure hs ⟨Operand.isRegister_virtualReg hreg ty, rfl⟩
  · refine (leads_freshId hs).bind fun reg s₁ hs₁ _ hreg => ?_
    refine (Leads.modify (g := fun s => { s with temps := (id, reg) :: s.temps })
      ⟨hs₁.unsaved, hs₁.code, hs₁.blocks, fun e he => ?_, hs₁.params, hs₁.homes⟩ (Nat.le_refl _)).bind
      fun _ s₂ hs₂ hle _ => ?_
    · rcases List.mem_cons.mp he with rfl | he
      · exact hreg
      · exact hs₁.temps e he
    · exact .pure hs₂ ⟨Operand.isRegister_virtualReg (Nat.lt_of_lt_of_le hreg hle) ty, rfl⟩

theorem leads_setHome (hs : Tracked t s) (name : AggregateName) (home : Home)
    (h : ∀ parts, home = .registers parts → ∀ part ∈ parts, part.1 < s.next) :
    Leads t s (setHome name home) fun _ _ => True := by
  refine .modify ⟨hs.unsaved, hs.code, hs.blocks, hs.temps, hs.params, fun name' parts hmem => ?_⟩
    (Nat.le_refl _)
  rcases List.mem_cons.mp hmem with heq | hmem
  · cases heq
    exact h parts rfl
  · exact hs.homes name' parts hmem

theorem Tracked.homeRegisters? (hs : Tracked t s) {value : Ir.Value}
    {parts : List (RegId × Piece)} (h : s.homeRegisters? value = some parts) :
    ∀ part ∈ parts, part.1 < s.next := by
  obtain ⟨name, hmem⟩ := State.mem_aggregates_of_homeRegisters? h
  exact hs.homes name parts hmem

/-! ## Values -/

theorem leads_emitAddress (hs : Tracked c.target s) {dest : Operand}
    (hdest : dest.IsRegister c.target s.next) (hty : dest.ty = c.target.pointerType)
    (value : Ir.Value) : Leads c.target s (c.emitAddress dest value) fun _ _ => True := by
  refine .get_bind ?_
  split
  · refine leads_emit hs ?_ trivial
    simpa using ⟨hdest.plain, (Operand.isPlainPlace_stack _ _ _).plain⟩
  · refine leads_emit hs ?_ ⟨dest, _, rfl, hdest.isRegLike, hty⟩
    simpa using ⟨hdest.plain, Operand.plain_global _ _⟩
  · exact .pure hs trivial

theorem leads_addressOf (hs : Tracked c.target s) (value : Ir.Value) :
    Leads c.target s (c.addressOf value) fun n o => o.IsRegister c.target n := by
  refine (leads_freshReg hs _).bind fun dest s₁ hs₁ _ hdest => ?_
  refine (leads_emitAddress hs₁ hdest.1 hdest.2 value).bind fun _ s₂ hs₂ hle _ => ?_
  exact .pure hs₂ (hdest.1.mono hle)

theorem leads_operand (hs : Tracked c.target s) (value : Ir.Value) :
    Leads c.target s (c.operand value) fun n o => o.IsValue c.target n := by
  have haddress : Leads c.target s (c.addressOf value) fun n o => o.IsValue c.target n :=
    ⟨fun a s' h => ((leads_addressOf hs value).ok a s' h).imp_right (.imp_right (·.isValue))⟩
  unfold Scope.operand
  split
  · exact .pure hs (Operand.isValue_immediate (Word.isSigned_toInt _) _)
  · exact .unsupported _
  · exact haddress
  · refine .get_bind ?_
    split
    · exact haddress
    · exact ⟨fun a s' h => ((leads_tempReg hs _ _).ok a s' h).imp_right (.imp_right (·.1.isValue))⟩
  · refine .get_bind ?_
    split
    · next id ty hlookup =>
      have hid : id < s.next := hs.params _ (mem_of_lookup_eq_some hlookup)
      exact .pure hs (Operand.isRegister_parameter hid ty).isValue
    · refine .get_bind ?_
      split
      · exact haddress
      · exact .unsupported _

theorem leads_location (hs : Tracked c.target s) (ptr : Ir.Value) (ty : LowType) :
    Leads c.target s (c.location ptr ty) fun n o => o.IsPlainPlace c.target n := by
  refine .get_bind ?_
  split
  · exact .pure hs (Operand.isPlainPlace_stack _ _ _)
  · split
    · exact .unsupported _
    · refine (leads_operand hs ptr).bind fun base s₁ hs₁ _ hbase => ?_
      split
      · next reg hreg =>
        exact .pure hs₁ (Operand.isPlainPlace_memory (hbase.plain.id_lt reg hreg) _ _)
      · exact .unsupported _

/-! ## Memory -/

theorem leads_size (hs : Tracked t s) (ty : Ir.Ty) : Leads t s (c.size ty) fun _ _ => True :=
  .check hs fun _ _ => trivial

theorem leads_fitsRegisters (hs : Tracked t s) (ty : Ir.Ty) :
    Leads t s (c.fitsRegisters ty) fun _ _ => True := by
  refine (leads_size hs ty).bind fun bytes s₁ hs₁ _ _ => ?_
  refine (Leads.check (P := fun _ => True) hs₁ fun _ _ => trivial).bind fun bits s₂ hs₂ _ _ => ?_
  exact .pure hs₂ trivial

theorem leads_piecesOf (hs : Tracked t s) (ty : Ir.Ty) :
    Leads t s (c.piecesOf ty) fun _ _ => True :=
  (leads_size hs ty).bind fun _ _ hs₁ _ _ => .pure hs₁ trivial

theorem isPlainPlace_piece {location : Operand} {next : Nat} (h : location.IsPlainPlace t next)
    (p : Piece) : (p.of location).IsPlainPlace t next := by
  obtain ⟨hplain, hplace⟩ := h
  obtain ⟨kind, ty, regClass⟩ := location
  cases kind with
  | memory base offset => exact ⟨⟨hplain.id_lt, nofun, nofun⟩, rfl⟩
  | stack slot offset => exact ⟨⟨nofun, nofun, nofun⟩, rfl⟩
  | _ => cases hplace

theorem leads_emitPieceCopy (hs : Tracked t s) {dest source : Operand}
    (hdest : dest.IsPlainPlace t s.next) (hsource : source.IsPlainPlace t s.next) (p : Piece) :
    Leads t s (Scope.emitPieceCopy dest source p) fun _ _ => True := by
  refine (leads_freshReg hs p.ty).bind fun temp s₁ hs₁ hle htemp => ?_
  refine (leads_emit hs₁ ?_ (by exact trivial)).bind fun _ s₂ hs₂ hle' _ => ?_
  · simpa using ⟨htemp.1.plain, (isPlainPlace_piece (hsource.mono hle) p).plain⟩
  · refine leads_emit hs₂ ?_ trivial
    simpa using ⟨(isPlainPlace_piece ((hdest.mono hle).mono hle') p).plain, htemp.1.plain.mono hle'⟩

theorem leads_emitCopy (hs : Tracked t s) {dest source : Operand}
    (hdest : dest.IsPlainPlace t s.next) (hsource : source.IsPlainPlace t s.next) (bytes : Nat) :
    Leads t s (c.emitCopy dest source bytes) fun _ _ => True :=
  .forM (R := fun n _ => dest.IsPlainPlace t n ∧ source.IsPlainPlace t n) hs
    (fun _ _ => ⟨hdest, hsource⟩) (fun _ _ _ hle h => ⟨h.1.mono hle, h.2.mono hle⟩)
    fun p _ hs' h => leads_emitPieceCopy hs' h.1 h.2 p

theorem leads_emitPieceLoad (hs : Tracked t s) {location : Operand}
    (hlocation : location.IsPlainPlace t s.next) (p : Piece) :
    Leads t s (Scope.emitPieceLoad location p) fun n part => part.1 < n := by
  refine (leads_freshId hs).bind fun id s₁ hs₁ hle hid => ?_
  refine (leads_emit hs₁ ?_ (by exact trivial)).bind fun _ s₂ hs₂ hle' _ => ?_
  · simpa using ⟨(Operand.isRegister_virtualReg hid _).plain,
      (isPlainPlace_piece (hlocation.mono hle) p).plain⟩
  · exact .pure hs₂ (Nat.lt_of_lt_of_le hid hle')

theorem leads_lowerLoad (hs : Tracked c.target s) (result : Ir.TempId) (ptr : Ir.Value)
    (ty : Ir.Ty) : Leads c.target s (c.lowerLoad result ptr ty) fun _ _ => True := by
  unfold Scope.lowerLoad
  split
  · refine (leads_location hs ptr _).bind fun location s₁ hs₁ _ hlocation => ?_
    refine (leads_fitsRegisters hs₁ ty).bind fun fits s₂ hs₂ hle₂ _ => ?_
    split
    · refine (leads_piecesOf hs₂ ty).bind fun pieces s₃ hs₃ hle₃ _ => ?_
      refine (Leads.mapM (Q := fun n part => part.1 < n)
        (R := fun n _ => location.IsPlainPlace c.target n) hs₃
        (fun _ _ => (hlocation.mono hle₂).mono hle₃) (fun _ _ _ hle h => h.mono hle)
        (fun _ _ _ hle h => Nat.lt_of_lt_of_le h hle)
        fun p _ hs' h => leads_emitPieceLoad hs' h p).bind fun parts s₄ hs₄ _ hparts => ?_
      exact leads_setHome hs₄ _ _ fun parts' h => by cases h; exact hparts
    · refine (leads_size hs₂ ty).bind fun bytes s₃ hs₃ hle₃ _ => ?_
      refine (leads_freshSlot hs₃ bytes).bind fun slot s₄ hs₄ hle₄ _ => ?_
      refine (leads_emitCopy hs₄ (Operand.isPlainPlace_stack _ _ _)
        (((hlocation.mono hle₂).mono hle₃).mono hle₄) bytes).bind fun _ s₅ hs₅ _ _ => ?_
      exact leads_setHome hs₅ _ _ fun parts h => by cases h
  · refine (leads_location hs ptr _).bind fun location s₁ hs₁ _ hlocation => ?_
    refine (leads_tempReg hs₁ result _).bind fun dest s₂ hs₂ hle hdest => ?_
    refine leads_emit hs₂ ?_ trivial
    simpa using ⟨hdest.1.plain, hlocation.plain.mono hle⟩

theorem leads_lowerStore (hs : Tracked c.target s) (value ptr : Ir.Value) :
    Leads c.target s (c.lowerStore value ptr) fun _ _ => True := by
  dsimp only [Scope.lowerStore]
  split
  · refine (leads_location hs ptr _).bind fun location s₁ hs₁ _ hlocation => .get_bind ?_
    split
    · next parts hparts =>
      refine .forM (R := fun n part => location.IsPlainPlace c.target n ∧ part.1 < n) hs₁
        (fun part hpart => ⟨hlocation, hs₁.homeRegisters? hparts part hpart⟩)
        (fun _ _ _ hle h => ⟨h.1.mono hle, Nat.lt_of_lt_of_le h.2 hle⟩) fun part s' hs' h => ?_
      refine leads_emit hs' ?_ trivial
      simpa using ⟨(isPlainPlace_piece h.1 part.2).plain, (Operand.isRegister_virtualReg h.2 _).plain⟩
    · refine (leads_location hs₁ value _).bind fun source s₂ hs₂ hle hsource => ?_
      refine (leads_size hs₂ _).bind fun bytes s₃ hs₃ hle' _ => ?_
      exact leads_emitCopy hs₃ ((hlocation.mono hle).mono hle') (hsource.mono hle') bytes
  · refine (leads_location hs ptr _).bind fun location s₁ hs₁ _ hlocation => ?_
    refine (leads_operand hs₁ value).bind fun source s₂ hs₂ hle hsource => ?_
    refine leads_emit hs₂ ?_ trivial
    simpa using ⟨hlocation.plain.mono hle, hsource.plain⟩

theorem leads_emitOffset (hs : Tracked t s) {dest base : Operand} (hdest : dest.IsRegister t s.next)
    (hbase : base.IsValue t s.next) {offset : Int} (hoffset : Word.IsSigned offset) :
    Leads t s (c.emitOffset dest base offset) fun _ _ => True := by
  unfold Scope.emitOffset
  split
  · refine leads_emit hs ?_ (by simpa [GenericOp.Suits] using hdest.isRegLike)
    simpa using ⟨hdest.plain, hbase.plain⟩
  · refine leads_emit hs ?_ trivial
    simpa using ⟨hdest.plain, hbase.plain, (Operand.isValue_immediate hoffset _).plain⟩

theorem leads_wideIndex (hs : Tracked c.target s) (index : Ir.Value) :
    Leads c.target s (c.wideIndex index) fun n o => o.IsValue c.target n := by
  refine (leads_operand hs index).bind fun narrow s₁ hs₁ _ hnarrow => ?_
  split
  · refine (leads_freshReg hs₁ _).bind fun wide s₂ hs₂ hle hwide => ?_
    have hvalue := hnarrow.mono hle
    refine (leads_emit hs₂ ?_ ?_).bind fun _ s₃ hs₃ hle' _ => ?_
    · simpa using ⟨hwide.1.plain, hvalue.plain⟩
    · split <;> simpa [GenericOp.Suits, hwide.1.isRegLike] using hvalue.isRegLike_or
    · exact .pure hs₃ (hwide.1.isValue.mono hle')
  · exact .pure hs₁ hnarrow

theorem leads_scaledIndex (hs : Tracked c.target s) (index : Ir.Value) {element : Int}
    (helement : Word.IsSigned element) :
    Leads c.target s (c.scaledIndex index element) fun n o => o.IsValue c.target n := by
  refine (leads_wideIndex hs index).bind fun wide s₁ hs₁ _ hwide => ?_
  split
  · exact .pure hs₁ hwide
  · refine (leads_freshReg hs₁ _).bind fun product s₂ hs₂ hle hproduct => ?_
    refine (leads_emit hs₂ ?_ (by exact trivial)).bind fun _ s₃ hs₃ hle' _ => ?_
    · simpa using ⟨hproduct.1.plain, hwide.plain.mono hle,
        (Operand.isValue_immediate helement _).plain⟩
    · exact .pure hs₃ (hproduct.1.isValue.mono hle')

theorem leads_lowerElementPtr (hs : Tracked c.target s) (result : Ir.TempId)
    (source index : Ir.Value) :
    Leads c.target s (c.lowerElementPtr result source index) fun _ _ => True := by
  dsimp only [Scope.lowerElementPtr]
  refine (leads_operand hs source).bind fun base s₁ hs₁ _ hbase => ?_
  refine (leads_tempReg hs₁ result _).bind fun dest s₂ hs₂ hle₂ hdest => ?_
  split
  · split
    · refine (Leads.check (P := fun _ => True) hs₂ fun _ _ => trivial).bind
        fun offset s₃ hs₃ hle₃ _ => ?_
      cases offset with
      | none => exact .unsupported _
      | some offset =>
        exact leads_emitOffset hs₃ (hdest.1.mono hle₃) ((hbase.mono hle₂).mono hle₃)
          (Word.isSigned_signed _)
    · exact .unsupported _
  · refine (leads_size hs₂ _).bind fun bytes s₃ hs₃ hle₃ _ => ?_
    split
    · refine (Leads.check (P := Word.IsSigned) hs₃ fun _ h => Word.isSigned_of_fitSigned h).bind
        fun offset s₄ hs₄ hle₄ hoffset => ?_
      exact leads_emitOffset hs₄ ((hdest.1.mono hle₃).mono hle₄)
        (((hbase.mono hle₂).mono hle₃).mono hle₄) hoffset
    · refine (leads_scaledIndex hs₃ index (Word.isSigned_signed _)).bind
        fun scaled s₄ hs₄ hle₄ hscaled => ?_
      refine leads_emit hs₄ ?_ trivial
      simpa using ⟨(hdest.1.plain.mono hle₃).mono hle₄,
        ((hbase.plain.mono hle₂).mono hle₃).mono hle₄, hscaled.plain⟩

/-! ## Calls and returns -/

theorem mem_passing_argumentsOf (isFloat : Bool) {root : RegId}
    (h : root ∈ t.convention.argumentsOf isFloat) : root ∈ t.passing := by
  rw [Target.Convention.argumentsOf] at h
  split at h <;> simp [Target.passing, h]

theorem mem_passing_resultsOf (isFloat : Bool) {root : RegId}
    (h : root ∈ t.convention.resultsOf isFloat) : root ∈ t.passing := by
  rw [Target.Convention.resultsOf] at h
  split at h <;> simp [Target.passing, h]

theorem isRegister_physical {root : RegId} {next : Nat} (h : root ∈ c.target.passing)
    (ty : LowType) : (c.physical root ty).IsRegister c.target next :=
  Operand.isRegister_physicalReg h ty

theorem suits_moveOp (ty : LowType) {dest : Operand} (hdest : dest.isRegLike) (source : Operand) :
    (moveOp ty).Suits t [dest, source] := by
  rw [moveOp]
  split <;> simpa [GenericOp.Suits] using hdest

theorem leads_emitInto (hs : Tracked t s) {dest source : Operand} (hdest : dest.IsRegister t s.next)
    (hsource : source.Plain t s.next) : Leads t s (emitInto dest source) fun _ _ => True := by
  refine leads_emit hs (by simpa using ⟨hdest.plain, hsource⟩) ?_
  split
  · trivial
  · exact suits_moveOp _ hdest.isRegLike _

theorem leads_stage (hs : Tracked t s) {source : Operand} (hsource : source.Plain t s.next)
    (ty : LowType) : Leads t s (stage source ty) fun n o => o.Plain t n := by
  refine .get_bind ?_
  split
  · refine (leads_freshReg hs ty).bind fun staged s₁ hs₁ hle hstaged => ?_
    refine (leads_emitInto hs₁ hstaged.1 (hsource.mono hle)).bind fun _ s₂ hs₂ hle' _ => ?_
    exact .pure hs₂ (hstaged.1.plain.mono hle')
  · exact .pure hs hsource

/-- A register, and what is moved or loaded into it. -/
structure IsPlainPart (t : Target) (next : Nat) (part : Operand × Operand) : Prop where
  dest : part.1.IsRegister t next
  source : part.2.Plain t next

theorem IsPlainPart.mono {next next' : Nat} {part : Operand × Operand}
    (h : IsPlainPart t next part) (hle : next ≤ next') : IsPlainPart t next' part :=
  ⟨h.dest.mono hle, h.source.mono hle⟩

theorem leads_aggregateParts (hs : Tracked c.target s) (value : Ir.Value) {registers : List RegId}
    (hregisters : ∀ root ∈ registers, root ∈ c.target.passing) :
    Leads c.target s (c.aggregateParts value registers) fun n parts =>
      ∀ part ∈ parts, IsPlainPart c.target n part := by
  dsimp only [Scope.aggregateParts]
  refine (leads_piecesOf hs _).bind fun chunks s₁ hs₁ _ _ => ?_
  split
  · exact .unsupported_bind _
  · refine .get_bind ?_
    split
    · next parts hparts =>
      refine .pure hs₁ fun part hpart => ?_
      obtain ⟨⟨⟨reg, p⟩, root⟩, hzip, rfl⟩ := List.mem_map.mp hpart
      obtain ⟨hreg, hroot⟩ := List.of_mem_zip hzip
      exact ⟨isRegister_physical (hregisters root hroot) _,
        (Operand.isRegister_virtualReg (hs₁.homeRegisters? hparts _ hreg) _).plain⟩
    · refine (leads_location hs₁ value _).bind fun location s₂ hs₂ _ hlocation => ?_
      refine .pure hs₂ fun part hpart => ?_
      obtain ⟨⟨p, root⟩, hzip, rfl⟩ := List.mem_map.mp hpart
      exact ⟨isRegister_physical (hregisters root (List.of_mem_zip hzip).2) _,
        (isPlainPlace_piece hlocation p).plain⟩

/-- An argument that `emitPlaced` can write. -/
structure IsPlainPlaced (t : Target) (next : Nat) (p : Placed) : Prop where
  dest : p.dest.IsRegister t next
  argument : match p.argument with
    | .copy source => source.Plain t next
    | .address _ => p.dest.ty = t.pointerType

theorem IsPlainPlaced.mono {next next' : Nat} {p : Placed} (h : IsPlainPlaced t next p)
    (hle : next ≤ next') : IsPlainPlaced t next' p := by
  obtain ⟨dest, argument⟩ := p
  refine ⟨h.dest.mono hle, ?_⟩
  have hargument := h.argument
  cases argument with
  | copy source => exact Operand.Plain.mono hargument hle
  | address value => exact hargument

theorem leads_placeReturnBuffer (hs : Tracked c.target s) (arg : Ir.Value) :
    Leads c.target s (c.placeReturnBuffer arg) (IsPlainPlaced c.target) := by
  have hroot : c.target.registers.returnBuffer ∈ c.target.passing := by simp [Target.passing]
  refine .get_bind ?_
  split
  · exact .pure hs ⟨isRegister_physical hroot _, rfl⟩
  · refine (leads_operand hs arg).bind fun source s₁ hs₁ _ hsource => ?_
    refine (leads_stage hs₁ hsource.plain _).bind fun staged s₂ hs₂ _ hstaged => ?_
    exact .pure hs₂ ⟨isRegister_physical hroot _, hstaged⟩

theorem leads_placeAggregate (hs : Tracked c.target s) (callee : String) (index : Nat)
    (arg : Ir.Value) (cursor : Cursor) :
    Leads c.target s (c.placeAggregate callee index arg cursor) fun n r =>
      ∀ p ∈ r.1, IsPlainPlaced c.target n p := by
  refine (leads_fitsRegisters hs arg.ty).bind fun fits s₁ hs₁ _ _ => ?_
  split
  · exact .unsupported_bind _
  · have hregisters : ∀ root ∈ c.target.convention.arguments.drop cursor.next,
        root ∈ c.target.passing := fun root hroot =>
      mem_passing_argumentsOf false (List.mem_of_mem_drop hroot)
    refine (leads_aggregateParts hs₁ arg hregisters).bind fun parts s₂ hs₂ _ hparts => ?_
    refine (Leads.mapM (Q := IsPlainPlaced c.target) (R := IsPlainPart c.target) hs₂ hparts
      (fun _ _ _ hle h => h.mono hle) (fun _ _ _ hle h => h.mono hle)
      fun part s' hs' h => ?_).bind fun placed s₃ hs₃ _ hplaced => .pure hs₃ hplaced
    refine (leads_stage hs' h.source _).bind fun staged s₄ hs₄ hle hstaged => ?_
    exact .pure hs₄ ⟨h.dest.mono hle, hstaged⟩

theorem lowType_of_isPointer {ty : Ir.Ty} (h : ty.isPointer) :
    c.lowType ty = c.target.pointerType := by
  cases ty with
  | ptr ty => rfl
  | _ => cases h

theorem leads_placeScalar (hs : Tracked c.target s) (callee : String) (arg : Ir.Value)
    (cursor : Cursor) :
    Leads c.target s (c.placeScalar callee arg cursor) fun n r => IsPlainPlaced c.target n r.1 := by
  dsimp only [Scope.placeScalar]
  refine (Leads.check (P := fun root => root ∈ c.target.passing) hs fun root hroot =>
    mem_passing_argumentsOf _ (List.mem_of_getElem? (orFail_eq_ok.mp hroot))).bind
    fun root s₁ hs₁ _ hroot => .get_bind ?_
  split
  · next haddress =>
    rw [Bool.and_eq_true] at haddress
    exact .pure hs₁ ⟨isRegister_physical hroot _, lowType_of_isPointer haddress.1⟩
  · refine (leads_operand hs₁ arg).bind fun source s₂ hs₂ _ hsource => ?_
    refine (leads_stage hs₂ hsource.plain _).bind fun staged s₃ hs₃ _ hstaged => ?_
    exact .pure hs₃ ⟨isRegister_physical hroot _, hstaged⟩

theorem leads_placeArguments (hs : Tracked c.target s) (callee : String)
    (returnBuffer : Option Nat) (args : List (Ir.Value × Nat)) (cursor : Cursor) :
    Leads c.target s (c.placeArguments callee returnBuffer args cursor) fun n placed =>
      ∀ p ∈ placed, IsPlainPlaced c.target n p := by
  induction args generalizing s cursor with
  | nil => exact .pure hs (by simp)
  | cons arg args ih =>
    unfold Scope.placeArguments
    dsimp only
    split
    · refine (leads_placeReturnBuffer hs arg.1).bind fun placed s₁ hs₁ _ hplaced => ?_
      refine (ih hs₁ cursor).bind fun rest s₂ hs₂ hle hrest => .pure hs₂ ?_
      exact List.forall_mem_cons.mpr ⟨hplaced.mono hle, hrest⟩
    · split
      · refine (leads_placeAggregate hs callee _ arg.1 cursor).bind fun r s₁ hs₁ _ hplaced => ?_
        refine (ih hs₁ r.2).bind fun rest s₂ hs₂ hle hrest => .pure hs₂ ?_
        exact List.forall_mem_append.mpr ⟨fun p hp => (hplaced p hp).mono hle, hrest⟩
      · refine (leads_placeScalar hs callee arg.1 cursor).bind fun r s₁ hs₁ _ hplaced => ?_
        refine (ih hs₁ r.2).bind fun rest s₂ hs₂ hle hrest => .pure hs₂ ?_
        exact List.forall_mem_cons.mpr ⟨hplaced.mono hle, hrest⟩

theorem leads_emitPlaced (hs : Tracked c.target s) {p : Placed}
    (hp : IsPlainPlaced c.target s.next p) : Leads c.target s (c.emitPlaced p) fun _ _ => True := by
  obtain ⟨dest, argument⟩ := p
  have hargument := hp.argument
  cases argument with
  | copy source => exact leads_emitInto hs hp.dest hargument
  | address value => exact leads_emitAddress hs hp.dest hargument value

theorem leads_receiveAggregate (hs : Tracked c.target s) (callee : String) (result : Ir.TempId)
    (ty : Ir.Ty) : Leads c.target s (c.receiveAggregate callee result ty) fun _ _ => True := by
  refine (leads_fitsRegisters hs ty).bind fun fits s₁ hs₁ _ _ => ?_
  split
  · exact .unsupported_bind _
  · refine (leads_size hs₁ ty).bind fun bytes s₂ hs₂ _ _ => ?_
    refine (leads_freshSlot hs₂ bytes).bind fun slot s₃ hs₃ _ _ => ?_
    refine (leads_piecesOf hs₃ ty).bind fun chunks s₄ hs₄ _ _ => ?_
    refine (Leads.forM (R := fun _ part => part.2 ∈ c.target.passing) hs₄
      (fun part hpart => mem_passing_resultsOf false (List.of_mem_zip hpart).2)
      (fun _ _ _ _ h => h) fun part s' hs' h => ?_).bind fun _ s₅ hs₅ _ _ => ?_
    · refine leads_emit hs' ?_ trivial
      simpa using ⟨(isPlainPlace_piece (Operand.isPlainPlace_stack slot 0 _) part.1).plain,
        (isRegister_physical h _).plain⟩
    · exact leads_setHome hs₅ _ _ fun parts h => by cases h

theorem leads_receiveScalar (hs : Tracked c.target s) (result : Ir.TempId) (ty : Ir.Ty) :
    Leads c.target s (c.receiveScalar result ty) fun _ _ => True := by
  refine (Leads.check (P := fun root => root ∈ c.target.passing) hs fun root hroot =>
    mem_passing_resultsOf _ (List.mem_of_head? (orFail_eq_ok.mp hroot))).bind
    fun root s₁ hs₁ _ hroot => ?_
  refine (leads_tempReg hs₁ result _).bind fun dest s₂ hs₂ _ hdest => ?_
  refine leads_emit hs₂ ?_ (suits_moveOp _ hdest.1.isRegLike _)
  simpa using ⟨hdest.1.plain, (isRegister_physical hroot _).plain⟩

theorem leads_lowerCall (hs : Tracked c.target s) (result : Option Ir.TempId) (callee : String)
    (args : List Ir.Value) (ty : Ir.Ty) (returnBuffer : Option Nat) :
    Leads c.target s (c.lowerCall result callee args ty returnBuffer) fun _ _ => True := by
  refine (Leads.modify (g := fun s => { s with function := { s.function with isCaller := true } })
    (hs.withFunction rfl rfl (Nat.le_refl _)) (Nat.le_refl _)).bind fun _ s₁ hs₁ _ _ => ?_
  refine (leads_placeArguments hs₁ callee returnBuffer _ _).bind fun placed s₂ hs₂ _ hplaced => ?_
  refine (Leads.forM (R := IsPlainPlaced c.target) hs₂ hplaced (fun _ _ _ hle h => h.mono hle)
    fun p s' hs' h => leads_emitPlaced hs' h).bind fun _ s₃ hs₃ _ _ => ?_
  refine (leads_emit hs₃ (by simpa using Operand.plain_function _) (by exact trivial)).bind
    fun _ s₄ hs₄ _ _ => ?_
  split
  · exact .pure hs₄ trivial
  · split
    · exact leads_receiveAggregate hs₄ callee _ ty
    · exact leads_receiveScalar hs₄ _ ty

theorem leads_lowerReturn (hs : Tracked c.target s) (value : Option Ir.Value) :
    Leads c.target s (c.lowerReturn value) fun _ _ => True := by
  cases value with
  | none => exact leads_emit hs (by simp) trivial
  | some value =>
    dsimp only [Scope.lowerReturn]
    split
    · refine (leads_fitsRegisters hs _).bind fun fits s₁ hs₁ _ _ => ?_
      split
      · exact .unsupported_bind _
      · refine (leads_aggregateParts hs₁ value fun root hroot =>
          mem_passing_resultsOf false hroot).bind fun parts s₂ hs₂ _ hparts => ?_
        refine (Leads.forM (R := IsPlainPart c.target) hs₂ hparts (fun _ _ _ hle h => h.mono hle)
          fun part s' hs' h => leads_emitInto hs' h.dest h.source).bind
          fun _ s₃ hs₃ _ _ => ?_
        exact leads_emit hs₃ (by simp) trivial
    · refine (leads_operand hs value).bind fun operand s₁ hs₁ _ hoperand => ?_
      split
      · refine (Leads.check (P := fun root => root ∈ c.target.passing) hs₁ fun root hroot =>
          mem_passing_resultsOf false (List.mem_of_head? (orFail_eq_ok.mp hroot))).bind
          fun root s₂ hs₂ hle hroot => ?_
        have hdest : (c.physical root operand.ty).IsRegister c.target s₂.next :=
          isRegister_physical hroot operand.ty
        refine (leads_emit hs₂ ?_ (by simpa [GenericOp.Suits] using hdest.isRegLike)).bind
          fun _ s₃ hs₃ _ _ => ?_
        · simpa using ⟨hdest.plain, hoperand.plain.mono hle⟩
        · exact leads_emit hs₃ (by simp) trivial
      · exact leads_emit hs₁ (by simpa using hoperand.plain) trivial

/-! ## Functions -/

theorem suits_binaryOp (op : Ir.BinaryOp) {dest : Operand} (hdest : dest.isRegLike)
    (lhs rhs : Operand) : (binaryOp op).Suits t [dest, lhs, rhs] := by
  cases op <;> simp [binaryOp, GenericOp.Suits, hdest]

theorem suits_unaryOp (ty : Ir.Ty) (op : Ir.UnaryOp) {next : Nat} {dest source : Operand}
    (hdest : dest.IsRegister t next) (hsource : source.IsValue t next) :
    (unaryOp ty op).Suits t [dest, source] := by
  cases op with
  | sext | zext | trunc =>
    simpa [unaryOp, GenericOp.Suits, hdest.isRegLike] using hsource.isRegLike_or
  | ftoi | itof => trivial
  | bitcast =>
    rw [unaryOp]
    split <;> simpa [GenericOp.Suits] using hdest.isRegLike

theorem leads_lowerCompare (hs : Tracked c.target s) (result : Ir.TempId) (rel : Ir.Relation)
    (lhs rhs : Ir.Value) :
    Leads c.target s (c.lowerCompare result rel lhs rhs) fun _ _ => True := by
  dsimp only [Scope.lowerCompare]
  refine (leads_operand hs lhs).bind fun lhs' s₁ hs₁ _ hlhs => ?_
  refine (leads_operand hs₁ rhs).bind fun rhs' s₂ hs₂ hle₂ hrhs => ?_
  refine (leads_tempReg hs₂ result _).bind fun dest s₃ hs₃ hle₃ hdest => ?_
  have hlhs' := (hlhs.mono hle₂).mono hle₃
  have hrhs' := hrhs.mono hle₃
  refine .modify (hs₃.push ⟨⟨_, rfl, rfl, ?_⟩, ?_⟩) (Nat.le_refl _)
  · split
    · trivial
    · show GenericOp.Suits _ .cmp [dest, lhs', rhs']
      simpa [GenericOp.Suits, hdest.1.isRegLike] using
        ⟨hlhs'.isRegLike_or, hrhs'.isRegLike_or⟩
  · show ∀ o ∈ [dest, lhs', rhs'], o.Plain c.target s₃.next
    simpa using ⟨hdest.1.plain, hlhs'.plain, hrhs'.plain⟩

theorem leads_lowerJumpUnless (hs : Tracked t s) (next target : Option String) :
    Leads t s (Scope.lowerJumpUnless next target) fun _ _ => True := by
  unfold Scope.lowerJumpUnless
  split
  · exact leads_emit hs (by simpa using Operand.plain_label _) trivial
  · exact .pure hs trivial

theorem leads_lowerBranch (hs : Tracked c.target s) (condition : Ir.Value) (trueTarget : String)
    (falseTarget next : Option String) :
    Leads c.target s (c.lowerBranch condition trueTarget falseTarget next) fun _ _ => True := by
  unfold Scope.lowerBranch
  split
  · exact leads_lowerJumpUnless hs _ _
  · refine (leads_operand hs condition).bind fun operand s₁ hs₁ _ hoperand => ?_
    refine leads_emit hs₁ ?_ trivial
    refine List.forall_mem_cons.mpr ⟨hoperand.plain, List.forall_mem_cons.mpr
      ⟨Operand.plain_label _, fun o ho => ?_⟩⟩
    obtain ⟨label, -, rfl⟩ := List.mem_map.mp ho
    exact Operand.plain_label _

theorem leads_lowerInstruction (hs : Tracked c.target s) (next : Option String)
    (i : Ir.Instruction) : Leads c.target s (c.lowerInstruction next i) fun _ _ => True := by
  cases i with
  | binary result op lhs rhs ty =>
    refine (leads_operand hs lhs).bind fun lhs' s₁ hs₁ _ hlhs => ?_
    refine (leads_operand hs₁ rhs).bind fun rhs' s₂ hs₂ hle₂ hrhs => ?_
    refine (leads_tempReg hs₂ result _).bind fun dest s₃ hs₃ hle₃ hdest => ?_
    refine leads_emit hs₃ ?_ (suits_binaryOp _ hdest.1.isRegLike _ _)
    simpa using ⟨hdest.1.plain, (hlhs.plain.mono hle₂).mono hle₃, hrhs.plain.mono hle₃⟩
  | unary result op operand ty =>
    refine (leads_operand hs operand).bind fun source s₁ hs₁ _ hsource => ?_
    refine (leads_tempReg hs₁ result _).bind fun dest s₂ hs₂ hle hdest => ?_
    refine leads_emit hs₂ ?_ (suits_unaryOp ty op hdest.1 (hsource.mono hle))
    simpa using ⟨hdest.1.plain, hsource.plain.mono hle⟩
  | compare result rel lhs rhs => exact leads_lowerCompare hs result rel lhs rhs
  | stackAlloc result name ty =>
    refine (leads_size hs ty).bind fun bytes s₁ hs₁ _ _ => ?_
    refine (leads_freshSlot hs₁ bytes).bind fun slot s₂ hs₂ _ _ => ?_
    exact .modify ⟨hs₂.unsaved, hs₂.code, hs₂.blocks, hs₂.temps, hs₂.params, hs₂.homes⟩
      (Nat.le_refl _)
  | load result ptr ty => exact leads_lowerLoad hs result ptr ty
  | store value ptr => exact leads_lowerStore hs value ptr
  | elementPtr result source index ty => exact leads_lowerElementPtr hs result source index
  | memCopy dest source bytes =>
    refine (leads_location hs dest _).bind fun dest' s₁ hs₁ _ hdest => ?_
    refine (leads_location hs₁ source _).bind fun source' s₂ hs₂ hle hsource => ?_
    exact leads_emitCopy hs₂ (hdest.mono hle) hsource _
  | call result callee args ty returnBuffer => exact leads_lowerCall hs result callee args ty _
  | jump target => exact leads_emit hs (by simpa using Operand.plain_label _) trivial
  | branch condition trueTarget falseTarget =>
    exact leads_lowerBranch hs condition trueTarget falseTarget next
  | ret value => exact leads_lowerReturn hs value

theorem leads_setParameter (hs : Tracked t s) (name : String) {id : RegId} (hid : id < s.next)
    (ty : LowType) : Leads t s (Scope.setParameter name id ty) fun _ _ => True := by
  refine .modify ⟨hs.unsaved, hs.code, hs.blocks, hs.temps, ?_, hs.homes⟩ (Nat.le_refl _)
  exact List.forall_mem_cons.mpr ⟨hid, hs.params⟩

theorem leads_lowerParameter (hs : Tracked c.target s) (p : Ir.Parameter) :
    Leads c.target s (c.lowerParameter p) fun _ _ => True := by
  unfold Scope.lowerParameter
  split
  · exact (leads_freshParameter hs _ _ _).bind fun id s₁ hs₁ _ hid =>
      leads_setParameter hs₁ _ hid _
  · split
    · refine (leads_fitsRegisters hs p.ty).bind fun fits s₁ hs₁ _ _ => ?_
      split
      · exact .unsupported_bind _
      · refine (leads_size hs₁ p.ty).bind fun bytes s₂ hs₂ _ _ => ?_
        refine (leads_freshSlot hs₂ bytes).bind fun slot s₃ hs₃ _ _ => ?_
        refine (leads_piecesOf hs₃ p.ty).bind fun chunks s₄ hs₄ _ _ => ?_
        refine (Leads.forM (R := fun _ _ => True) hs₄ (fun _ _ => trivial)
          (fun _ _ _ _ _ => trivial) fun piece s' hs' _ => ?_).bind fun _ s₅ hs₅ _ _ => ?_
        · refine (leads_freshParameter hs' _ _ _).bind fun id s₆ hs₆ _ hid => ?_
          refine leads_emit hs₆ ?_ trivial
          simpa using ⟨(isPlainPlace_piece (Operand.isPlainPlace_stack slot 0 _) piece).plain,
            (Operand.isRegister_parameter hid _).plain⟩
        · exact leads_setHome hs₅ _ _ fun parts h => by cases h
    · exact (leads_freshParameter hs _ _ _).bind fun id s₁ hs₁ _ hid =>
        leads_setParameter hs₁ _ hid _

theorem leads_closeBlock (hs : Tracked t s) (name : String) :
    Leads t s (Scope.closeBlock name) fun _ _ => True := by
  refine .modify ⟨hs.unsaved, by simp, fun i hi => ?_, hs.temps, hs.params, hs.homes⟩ (Nat.le_refl _)
  obtain ⟨b, hb, hi⟩ := Machine.Function.mem_instructions.mp hi
  rcases List.mem_append.mp hb with hb | hb
  · exact hs.blocks i (Machine.Function.mem_instructions.mpr ⟨b, hb, hi⟩)
  · rw [List.mem_singleton.mp hb] at hi
    exact hs.code i hi

theorem leads_lowerBlocks (hs : Tracked c.target s) (blocks : List Ir.Block) :
    Leads c.target s (c.lowerBlocks blocks) fun _ _ => True := by
  induction blocks generalizing s with
  | nil => exact .pure hs trivial
  | cons b rest ih =>
    refine (Leads.forM (R := fun _ _ => True) hs (fun _ _ => trivial) (fun _ _ _ _ _ => trivial)
      fun i s' hs' _ => leads_lowerInstruction hs' _ i).bind fun _ s₁ hs₁ _ _ => ?_
    exact (leads_closeBlock hs₁ b.name).bind fun _ s₂ hs₂ _ _ => ih hs₂

theorem tracked_lowerFunction {f : Ir.Function} {g : Machine.Function}
    (h : lowerFunction t f = .ok g) : ∃ s, Tracked t s ∧ s.function = g := by
  have hstart : Tracked t { function := { name := f.name } } :=
    ⟨rfl, by simp, by simp [Machine.Function.All, Machine.Function.instructions], by simp, by simp,
      by simp⟩
  have hbody : Leads t { function := { name := f.name } } (do
      f.parameters.forM (Scope.lowerParameter ⟨t, f.name⟩)
      Scope.lowerBlocks ⟨t, f.name⟩ f.blocks) fun _ _ => True := by
    refine (Leads.forM (R := fun _ _ => True) hstart (fun _ _ => trivial)
      (fun _ _ _ _ _ => trivial) fun p s' hs' _ =>
        leads_lowerParameter (c := ⟨t, f.name⟩) hs' p).bind fun _ s₁ hs₁ _ _ => ?_
    exact leads_lowerBlocks (c := ⟨t, f.name⟩) hs₁ _
  rw [lowerFunction] at h
  obtain ⟨⟨a, s'⟩, hrun, h⟩ := bind_eq_ok.mp h
  cases h
  exact ⟨s', (hbody.ok a s' hrun).1, rfl⟩

/-- **The code of a lowered function is plain.** -/
theorem plain_lowerFunction {f : Ir.Function} {g : Machine.Function}
    (h : lowerFunction t f = .ok g) : g.All (·.Plain t g.nextId) := by
  obtain ⟨s, hs, rfl⟩ := tracked_lowerFunction h
  exact hs.blocks

theorem usedCalleeSaved_lowerFunction {f : Ir.Function} {g : Machine.Function}
    (h : lowerFunction t f = .ok g) : g.usedCalleeSaved = [] := by
  obtain ⟨s, hs, rfl⟩ := tracked_lowerFunction h
  exact hs.unsaved

end Lowering

end Retarget
