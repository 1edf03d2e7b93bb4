import Retarget.Proofs.Execution.Memory
import Retarget.Proofs.Stack.Reserved

/-!
# Moves between registers and memory

A move, a load or the taking of an address puts a number or some bytes into one register
(`Instruction.Fills`).  Once registers are physical such code runs on a processor (`Cpu.Step`),
and each step does what the instruction said before (`does_of_step`).  A run of moves leaves each
register with what its source held at the start, as long as no move writes what a later one reads
and no later one writes the register again (`Run.written`).
-/

namespace Retarget

def Target.stackRoot (t : Target) : Machine.RegId := t.registers.root t.registers.stack

namespace Machine

/-! ## Sources -/

/-- A number to put into a register. -/
inductive Datum where
  | constant (value : Int)
  | register (id : RegId)
  /-- The address of a frame object. -/
  | slot (slot : Slot)
  /-- The address of a global. -/
  | symbol (name : String)
deriving DecidableEq

/-- What is put into a register: a number, or the bytes at an address. -/
inductive Origin where
  | datum (x : Datum)
  | bytes (base : Datum) (offset : Int)
deriving DecidableEq

namespace Datum

def register? : Datum → Option RegId
  | .register id => some id
  | _ => none

def isAddress : Datum → Bool
  | .slot _ | .symbol _ => true
  | _ => false

end Datum

namespace Origin

/-- The datum itself, or the one that is the address of the bytes. -/
def base : Origin → Datum
  | .datum x => x
  | .bytes x _ => x

def register? (o : Origin) : Option RegId := o.base.register?

end Origin

def Operand.datum? (o : Operand) : Option Datum :=
  match o.kind with
  | .virtualReg id | .parameter id => some (.register id)
  | .immediate value => some (.constant value)
  | _ => none

def Operand.bytes? (o : Operand) : Option Origin :=
  match o.kind with
  | .memory base offset => some (.bytes (.register base) offset)
  | .stack slot offset => some (.bytes (.slot slot) offset)
  | _ => none

theorem Operand.isPlace_of_datum? {o : Operand} {x : Datum} (h : o.datum? = some x) :
    o.isPlace = false := by
  obtain ⟨kind, ty, regClass⟩ := o
  cases kind <;> first | rfl | cases h

theorem Operand.isPlace_of_bytes? {o : Operand} {origin : Origin} (h : o.bytes? = some origin) :
    o.isPlace := by
  obtain ⟨kind, ty, regClass⟩ := o
  cases kind <;> first | rfl | cases h

/-- What an operand reads. -/
def Operand.origin? (o : Operand) : Option Origin := (o.datum?.map .datum) <|> o.bytes?

theorem Operand.origin?_cases {o : Operand} {origin : Origin} (h : o.origin? = some origin) :
    (∃ x, o.datum? = some x ∧ origin = .datum x) ∨ o.bytes? = some origin := by
  rw [Operand.origin?] at h
  cases hx : o.datum? with
  | some x =>
    rw [hx] at h
    exact .inl ⟨x, rfl, (Option.some.inj h).symm⟩
  | none =>
    rw [hx] at h
    exact .inr h

theorem Operand.register?_of_origin? {o : Operand} {origin : Origin} (h : o.origin? = some origin) :
    origin.register? = o.unallocated? := by
  obtain ⟨kind, ty, regClass⟩ := o
  cases kind with
  | label name | function name | global name | physicalReg reg => cases h
  | _ =>
    cases h
    rfl

/-- The operation puts what comes from the origin into a register, if its source is this operand. -/
inductive GenericOp.Fetches (s : Operand) : GenericOp → Origin → Prop
  | mov {x : Datum} (h : s.datum? = some x) : Fetches s .mov (.datum x)
  | movf {x : Datum} (h : s.datum? = some x) : Fetches s .movf (.datum x)
  | load {o : Origin} (h : s.bytes? = some o) : Fetches s .load o
  | stackAddress {slot : Slot} (h : s.kind = .stack slot 0) :
    Fetches s .stackAddress (.datum (.slot slot))
  | globalAddress {name : String} (h : s.kind = .global name) :
    Fetches s .globalAddress (.datum (.symbol name))

/-- What is put into a register, at the width of a type. -/
structure Fill where
  dest : Operand.Kind
  ty : LowType
  origin : Origin

/-- The instruction moves or loads something, or takes an address. -/
inductive Instruction.Fills (i : Instruction) : Fill → Prop
  | intro {op : GenericOp} {d s : Operand} {o : Origin} (hop : i.generic? = some op)
    (hoperands : i.operands = [d, s]) (hd : d.isRegLike) (hs : op.Fetches s o) :
    i.Fills ⟨d.kind, d.ty, o⟩

/-! ## The processor -/

/-- The numbers in registers, by full-width register, and the bytes in memory.  An operand sees as
many low bits of its register as its type has. -/
structure Cpu (p : Nat) where
  registers : RegId → Nat
  memory : Memory p

namespace Cpu

variable {p : Nat}

/-- The low bits of a full-width register. -/
def read (σ : Cpu p) (reg : RegId) (width : Nat) : BitVec width :=
  BitVec.ofNat width (σ.registers reg)

/-- The processor after a full-width register has got a number. -/
def write (σ : Cpu p) (reg : RegId) (value : Nat) : Cpu p :=
  { σ with registers := Function.update σ.registers reg value }

/-- What an instruction over physical registers puts into the register that it defines. -/
def result? (t : Target) (symbols : String → BitVec t.pointerBits) (σ : Cpu t.pointerBits)
    (i : Instruction) (width : Nat) : Option (BitVec width) :=
  match i.generic?, i.operands.tail.map Operand.kind with
  | some .mov, [.physicalReg reg] | some .movf, [.physicalReg reg] =>
    some (σ.read (t.registers.root reg) width)
  | some .mov, [.immediate value] | some .movf, [.immediate value] =>
    some (BitVec.ofInt width value)
  | some .load, [.physicalReg base, .immediate offset] =>
    some (σ.memory.loadBits
      (σ.read (t.registers.root base) t.pointerBits + BitVec.ofInt t.pointerBits offset) width)
  | some .stackAddress, [.physicalReg base, .immediate offset] =>
    some ((σ.read (t.registers.root base) t.pointerBits +
      BitVec.ofInt t.pointerBits offset).setWidth width)
  | some .globalAddress, [.global name] => some ((symbols name).setWidth width)
  | _, _ => none

/-- One instruction.  The bits of the register above the width of the operand are left open, because
targets differ in them. -/
inductive Step (t : Target) (symbols : String → BitVec t.pointerBits) (i : Instruction)
    (σ σ' : Cpu t.pointerBits) : Prop
  | write {d : Operand} {reg : RegId} {v : BitVec d.size} (hdest : i.operands.head? = some d)
    (hreg : d.kind = .physicalReg reg) (hresult : result? t symbols σ i d.size = some v)
    (hwritten : σ'.read (t.registers.root reg) d.size = v)
    (hothers : ∀ r ≠ t.registers.root reg, σ'.registers r = σ.registers r)
    (hmemory : σ'.memory = σ.memory) : Step t symbols i σ σ'

/-- A run of instructions, one after another. -/
inductive Runs (t : Target) (symbols : String → BitVec t.pointerBits) :
    List Instruction → Cpu t.pointerBits → Cpu t.pointerBits → Prop
  | nil (σ : Cpu t.pointerBits) : Runs t symbols [] σ σ
  | cons {i : Instruction} {is : List Instruction} {σ σ₁ σ₂ : Cpu t.pointerBits}
    (first : Step t symbols i σ σ₁) (rest : Runs t symbols is σ₁ σ₂) :
    Runs t symbols (i :: is) σ σ₂

end Cpu

/-! ## What fills mean -/

/-- Where a program that runs has its registers, frame objects and globals. -/
structure Placement (t : Target) where
  /-- The full-width register of an id. -/
  home : RegId → RegId
  /-- The offset of a frame object from the stack pointer. -/
  position : Slot → Nat
  symbols : String → BitVec t.pointerBits

variable {t : Target}

def Datum.eval (P : Placement t) (σ : Cpu t.pointerBits) (width : Nat) : Datum → BitVec width
  | .constant value => BitVec.ofInt width value
  | .register id => σ.read (P.home id) width
  | .slot object => (σ.read t.stackRoot t.pointerBits +
      BitVec.ofNat t.pointerBits (P.position object)).setWidth width
  | .symbol name => (P.symbols name).setWidth width

/-- The bits that an origin has. -/
def Origin.eval (P : Placement t) (σ : Cpu t.pointerBits) (width : Nat) : Origin → BitVec width
  | .datum x => x.eval P σ width
  | .bytes x offset => σ.memory.loadBits
      (x.eval P σ t.pointerBits + BitVec.ofInt t.pointerBits offset) width

def Placement.root (P : Placement t) : Operand.Kind → RegId
  | .virtualReg id | .parameter id => P.home id
  | .physicalReg reg => t.registers.root reg
  | _ => 0

/-- The register is written with what the origin has, and nothing else changes. -/
structure Fill.Does (P : Placement t) (fill : Fill) (σ σ' : Cpu t.pointerBits) : Prop where
  written : σ'.read (P.root fill.dest) fill.ty.bits = fill.origin.eval P σ fill.ty.bits
  others : ∀ reg ≠ P.root fill.dest, σ'.registers reg = σ.registers reg
  memory : σ'.memory = σ.memory

namespace Function

/-- Where a function has what it names, once its ids have registers. -/
def placement (t : Target) (f : Function) (assigned : List (RegId × RegId))
    (symbols : String → BitVec t.pointerBits) : Placement t where
  home id := (assigned.lookup id).getD 0
  position slot := match f.frame.position? slot with
    | .ok (some position) => position
    | _ => 0
  symbols := symbols

variable {f : Function} {assigned : List (RegId × RegId)}
  {i j : Instruction} {d s : Operand}

theorem home_placement {symbols : String → BitVec t.pointerBits} {id reg : RegId}
    (h : assigned.lookup id = some reg) :
    (f.placement t assigned symbols).home id = reg := by
  simp [placement, h]

/-- An instruction of two operands, of which only the second may be a place in memory. -/
theorem placeInstruction_pair (hoperands : i.operands = [d, s]) (hd : d.isRegLike)
    (h : placeInstruction t f assigned i = .ok j) :
    ∃ d', placeOperand t f.name assigned d = .ok d' ∧ j.opcode = i.opcode ∧
      (s.isPlace = false ∧ (∃ s', placeOperand t f.name assigned s = .ok s' ∧
          j.operands = [d', s']) ∨
        s.isPlace ∧ ∃ base offset, resolveMemory t f assigned s = .ok (base, offset) ∧
          j.operands = [d', .physicalReg base t.pointerType, .immediate offset t.offsetType]) := by
  have hopcode := opcode_placeInstruction h
  obtain ⟨operands, hmap, hcases⟩ := placeInstruction_cases h
  rw [hoperands] at hmap
  obtain ⟨d', hd', s', hs', rfl⟩ : ∃ d', placeOperand t f.name assigned d = .ok d' ∧
      ∃ s', placeOperand t f.name assigned s = .ok s' ∧ operands = [d', s'] := by
    cases forall₂_of_mapM_eq_ok hmap with
    | cons hd' hrest =>
      cases hrest with
      | cons hs' hnil =>
        cases hnil
        exact ⟨_, hd', _, hs', rfl⟩
  have hplace : d'.isPlace = false := by
    rw [isPlace_placeOperand hd']
    obtain ⟨kind, ty, regClass⟩ := d
    cases kind <;> first | rfl | cases hd
  refine ⟨d', hd', hopcode, ?_⟩
  obtain ⟨hnone, rfl⟩ | ⟨before, place, after, base, offset, hsplit, -, hisplace, hresolve, rfl⟩ :=
    hcases
  · exact .inl ⟨(isPlace_placeOperand hs').symm.trans (hnone s' (by simp)), s', hs', rfl⟩
  · obtain ⟨rfl, rfl, rfl⟩ : before = [d'] ∧ place = s' ∧ after = [] := by
      rcases before with _ | ⟨first, _ | ⟨second, before⟩⟩
      · cases hsplit
        cases hplace.symm.trans hisplace
      · cases hsplit
        exact ⟨rfl, rfl, rfl⟩
      · simp at hsplit
    rw [isPlace_placeOperand hs'] at hisplace
    have hsame : place = s := by
      obtain ⟨kind, ty, regClass⟩ := s
      cases kind <;> first | (cases hs'; rfl) | cases hisplace
    subst hsame
    exact .inr ⟨hisplace, base, offset, hresolve, rfl⟩

theorem resolveMemory_stack (symbols : String → BitVec t.pointerBits) {slot : Slot}
    {offset offset' : Int} {base : RegId} (hs : s.kind = .stack slot offset)
    (h : resolveMemory t f assigned s = .ok (base, offset')) :
    base = t.registers.stack ∧
      offset' = (f.placement t assigned symbols).position slot + offset := by
  rw [resolveMemory, hs] at h
  obtain ⟨position?, hposition, h⟩ := bind_eq_ok.mp h
  obtain ⟨position, hsome, h⟩ := bind_eq_ok.mp h
  obtain ⟨sum, hsum, h⟩ := bind_eq_ok.mp h
  have hposition := hposition.trans (congrArg _ (orFail_eq_ok.mp hsome))
  obtain ⟨hbase, hoffset⟩ := Prod.mk.inj (pure_eq_ok.mp h)
  refine ⟨hbase.symm, ?_⟩
  rw [Word.fitSigned] at hsum
  split at hsum
  · rw [← hoffset, ← Except.ok.inj hsum]
    simp [placement, hposition]
  · cases hsum

theorem read_stack (symbols : String → BitVec t.pointerBits) (σ : Cpu t.pointerBits) {slot : Slot}
    {offset offset' : Int} {base : RegId}
    (hs : s.kind = .stack slot offset)
    (h : resolveMemory t f assigned s = .ok (base, offset')) :
    σ.read (t.registers.root base) t.pointerBits +
        BitVec.ofInt t.pointerBits offset' =
      (Datum.slot slot).eval (f.placement t assigned symbols) σ t.pointerBits +
        BitVec.ofInt t.pointerBits offset := by
  obtain ⟨rfl, rfl⟩ := resolveMemory_stack symbols hs h
  rw [BitVec.ofInt_add, BitVec.ofInt_natCast, ← BitVec.add_assoc, Datum.eval, BitVec.setWidth_eq]
  rfl

section Arch

variable {a : Arch} (symbols : String → BitVec a.target.pointerBits) {fill : Fill}
  (hroots : ∀ id reg, assigned.lookup id = some reg → a.target.registers.root reg = reg)
include hroots

theorem placeOperand_register {d' : Operand} (hd : d.isRegLike)
    (h : placeOperand a.target f.name assigned d = .ok d') :
    ∃ reg, d'.kind = .physicalReg reg ∧ d'.ty = d.ty ∧
      a.target.registers.root reg = (f.placement a.target assigned symbols).root d.kind := by
  obtain ⟨kind, ty, regClass⟩ := d
  cases kind with
  | virtualReg id | parameter id =>
    obtain ⟨reg, hreg, h⟩ := bind_eq_ok.mp h
    cases h
    have hlookup := orFail_eq_ok.mp hreg
    refine ⟨_, rfl, rfl, ?_⟩
    rw [a.root_withWidth, hroots id reg hlookup]
    exact (home_placement hlookup).symm
  | physicalReg reg =>
    cases h
    exact ⟨reg, rfl, rfl, rfl⟩
  | _ => cases hd

theorem placeOperand_datum {s' : Operand} {x : Datum} (hx : s.datum? = some x)
    (h : placeOperand a.target f.name assigned s = .ok s') :
    (∃ reg, s'.kind = .physicalReg reg ∧ ∀ (σ : Cpu a.target.pointerBits) (width : Nat),
      σ.read (a.target.registers.root reg) width =
        x.eval (f.placement a.target assigned symbols) σ width) ∨
    ∃ value, s'.kind = .immediate value ∧ x = .constant value := by
  obtain ⟨kind, ty, regClass⟩ := s
  cases kind with
  | virtualReg id | parameter id =>
    cases hx
    obtain ⟨reg, hkind, -, hroot⟩ :=
      placeOperand_register symbols hroots (d := ⟨_, ty, regClass⟩) rfl h
    refine .inl ⟨reg, hkind, fun σ width => ?_⟩
    rw [hroot]
    rfl
  | immediate value =>
    cases hx
    cases h
    exact .inr ⟨value, rfl, rfl⟩
  | _ => cases hx

theorem resolveMemory_bytes (σ : Cpu a.target.pointerBits) {o : Origin} {base : RegId}
    {offset : Int} (ho : s.bytes? = some o)
    (h : resolveMemory a.target f assigned s = .ok (base, offset))
    (width : Nat) :
    σ.memory.loadBits (σ.read (a.target.registers.root base) a.target.pointerBits +
      BitVec.ofInt a.target.pointerBits offset) width =
        o.eval (f.placement a.target assigned symbols) σ width := by
  obtain ⟨kind, ty, regClass⟩ := s
  cases kind with
  | memory id place =>
    cases ho
    obtain ⟨reg, hreg, h⟩ := bind_eq_ok.mp h
    cases h
    have hlookup := orFail_eq_ok.mp hreg
    rw [a.root_withWidth, hroots id reg hlookup, Origin.eval, Datum.eval, home_placement hlookup]
  | stack slot place =>
    cases ho
    rw [read_stack symbols σ rfl h]
    rfl
  | _ => cases ho

/-- What an instruction fills, it fills once its registers are physical. -/
theorem result?_of_fills (hi : i.Fills fill)
    (h : placeInstruction a.target f assigned i = .ok j) :
    (∃ d reg, j.operands.head? = some d ∧ d.kind = .physicalReg reg ∧ d.ty = fill.ty ∧
      a.target.registers.root reg = (f.placement a.target assigned symbols).root fill.dest) ∧
    ∀ σ width, Cpu.result? a.target symbols σ j width =
      some (fill.origin.eval (f.placement a.target assigned symbols) σ width) := by
  obtain ⟨hop, hoperands, hd, hs⟩ := hi
  obtain ⟨d', hd', hopcode, hcase⟩ := placeInstruction_pair hoperands hd h
  obtain ⟨reg, hkind, hty, hroot⟩ := placeOperand_register symbols hroots hd hd'
  have hgeneric : j.generic? = some _ := (congrArg Opcode.generic? hopcode).trans hop
  have hdest : ∀ rest, j.operands = d' :: rest → ∃ d reg', j.operands.head? = some d ∧
      d.kind = .physicalReg reg' ∧ d.ty = _ ∧ a.target.registers.root reg' = _ :=
    fun rest hj => ⟨d', reg, by rw [hj]; rfl, hkind, hty, hroot⟩
  refine ⟨?_, fun σ width => ?_⟩
  · rcases hcase with ⟨-, s', -, hj⟩ | ⟨-, base, offset, -, hj⟩
    · exact hdest _ hj
    · exact hdest _ hj
  rw [Cpu.result?, hgeneric]
  rcases hcase with ⟨hplace, s', hs', hj⟩ | ⟨hplace, base, offset, hresolve, hj⟩
  · rw [hj]
    cases hs with
    | mov hx | movf hx =>
      rcases placeOperand_datum symbols hroots hx hs' with
        ⟨reg, hkind, hread⟩ | ⟨value, hkind, rfl⟩
      · simp [hkind, hread, Origin.eval]
      · simp [hkind, Origin.eval, Datum.eval]
    | load ho => simp [Operand.isPlace_of_bytes? ho] at hplace
    | stackAddress hslot => simp [Operand.isPlace, Operand.isStack, hslot] at hplace
    | @globalAddress name hname =>
      have hkind : s'.kind = .global name := by
        rw [placeOperand, hname] at hs'
        cases hs'
        exact hname
      simp [hkind, Origin.eval, Datum.eval, placement]
  · rw [hj]
    cases hs with
    | mov hx | movf hx => simp [Operand.isPlace_of_datum? hx] at hplace
    | load ho => exact congrArg some (resolveMemory_bytes symbols hroots σ ho hresolve width)
    | stackAddress hslot =>
      have haddress := read_stack symbols σ hslot hresolve
      have hzero : BitVec.ofInt a.target.pointerBits 0 = 0#_ := BitVec.ofInt_ofNat _ 0
      rw [hzero, BitVec.add_zero, Datum.eval, BitVec.setWidth_eq] at haddress
      exact congrArg (fun v => some (BitVec.setWidth width v)) haddress
    | globalAddress hname =>
      simp [Operand.isPlace, Operand.isStack, Operand.isMemory, hname] at hplace

theorem does_of_step {σ σ' : Cpu a.target.pointerBits} (hi : i.Fills fill)
    (h : placeInstruction a.target f assigned i = .ok j)
    (hstep : Cpu.Step a.target symbols j σ σ') :
    fill.Does (f.placement a.target assigned symbols) σ σ' := by
  obtain ⟨⟨d, reg, hhead, hkind, hty, hroot⟩, hresult⟩ :=
    result?_of_fills symbols hroots hi h
  obtain ⟨hdest, hreg, hvalue, hwritten, hothers, hmemory⟩ := hstep
  cases hhead.symm.trans hdest
  cases hkind.symm.trans hreg
  rw [hresult, Option.some.injEq] at hvalue
  rw [hroot] at hwritten hothers
  refine ⟨?_, hothers, hmemory⟩
  rw [← hty]
  exact hwritten.trans hvalue.symm

theorem exists_step (σ : Cpu a.target.pointerBits) (hi : i.Fills fill)
    (h : placeInstruction a.target f assigned i = .ok j) :
    ∃ σ', Cpu.Step a.target symbols j σ σ' := by
  obtain ⟨⟨d, reg, hhead, hkind, -, -⟩, hresult⟩ :=
    result?_of_fills symbols hroots hi h
  refine ⟨σ.write (a.target.registers.root reg)
    (fill.origin.eval (f.placement a.target assigned symbols) σ d.size).toNat,
    .write hhead hkind (hresult σ d.size) ?_ (fun r hr => ?_) rfl⟩
  · simp [Cpu.read, Cpu.write]
  · exact Function.update_of_ne hr _ _

end Arch

end Function

/-! ## Runs of fills -/

/-- Fills that happen one after another. -/
inductive Run (P : Placement t) :
    List Fill → Cpu t.pointerBits → Cpu t.pointerBits → Prop
  | nil (σ : Cpu t.pointerBits) : Run P [] σ σ
  | cons {fill : Fill} {fills : List Fill} {σ σ₁ σ₂ : Cpu t.pointerBits} (first : fill.Does P σ σ₁)
    (rest : Run P fills σ₁ σ₂) : Run P (fill :: fills) σ σ₂

section Arch

variable {a : Arch} {f : Function} {assigned : List (RegId × RegId)}
  {symbols : String → BitVec a.target.pointerBits} {is js : List Instruction} {fills : List Fill}
  (hroots : ∀ id reg, assigned.lookup id = some reg → a.target.registers.root reg = reg)
  (his : List.Forall₂ Instruction.Fills is fills)
  (hjs : List.Forall₂ (fun i j => Function.placeInstruction a.target f assigned i = .ok j) is js)
include hroots his hjs

theorem run_of_runs {σ σ' : Cpu a.target.pointerBits} (h : Cpu.Runs a.target symbols js σ σ') :
    Run (f.placement a.target assigned symbols) fills σ σ' := by
  induction h generalizing is fills with
  | nil σ =>
    cases hjs
    cases his
    exact .nil σ
  | cons first rest ih =>
    cases hjs with
    | cons hj hjs =>
      cases his with
      | cons hi his => exact .cons (Function.does_of_step symbols hroots hi hj first) (ih his hjs)

theorem exists_runs (σ : Cpu a.target.pointerBits) : ∃ σ', Cpu.Runs a.target symbols js σ σ' := by
  induction his generalizing js σ with
  | nil =>
    cases hjs
    exact ⟨σ, .nil σ⟩
  | cons hi his ih =>
    cases hjs with
    | cons hj hjs =>
      obtain ⟨σ₁, hstep⟩ := Function.exists_step symbols hroots σ hi hj
      obtain ⟨σ₂, hruns⟩ := ih hjs σ₁
      exact ⟨σ₂, .cons hstep hruns⟩

end Arch

variable {P : Placement t} {σ σ' : Cpu t.pointerBits}

theorem Cpu.read_congr {reg : RegId} (h : σ'.registers reg = σ.registers reg) (width : Nat) :
    σ'.read reg width = σ.read reg width := by
  rw [Cpu.read, Cpu.read, h]

/-- A narrower view of a register sees the low bits of a wider one. -/
theorem Cpu.read_of_le (σ : Cpu t.pointerBits) (reg : RegId) {n width : Nat} (h : n ≤ width) :
    σ.read reg n = (σ.read reg width).setWidth n :=
  (BitVec.setWidth_ofNat_of_le h _).symm

theorem Datum.eval_congr {x : Datum} (hstack : σ'.registers t.stackRoot = σ.registers t.stackRoot)
    (hregister : ∀ id, x.register? = some id → σ'.registers (P.home id) = σ.registers (P.home id))
    (width : Nat) : x.eval P σ' width = x.eval P σ width := by
  cases x with
  | register id => exact Cpu.read_congr (hregister id rfl) width
  | slot slot => rw [Datum.eval, Datum.eval, Cpu.read_congr hstack]
  | _ => rfl

theorem Datum.eval_of_le {x : Datum} (hx : x.isAddress) (σ : Cpu t.pointerBits) {n : Nat}
    (h : n ≤ t.pointerBits) : x.eval P σ n = (x.eval P σ t.pointerBits).setWidth n := by
  cases x with
  | slot slot => rw [Datum.eval, Datum.eval, BitVec.setWidth_setWidth_of_le _ h]
  | symbol name => rw [Datum.eval, Datum.eval, BitVec.setWidth_setWidth_of_le _ h]
  | _ => cases hx

/-- A fill writes none of the registers that a datum is in or relative to. -/
structure Placement.Spares (P : Placement t) (x : Datum) (fill : Fill) : Prop where
  stack : P.root fill.dest ≠ t.stackRoot
  register : ∀ id, x.register? = some id → P.root fill.dest ≠ P.home id

namespace Run

variable {fills fills' : List Fill} {fill : Fill}

theorem append_iff :
    Run P (fills ++ fills') σ σ' ↔ ∃ σ₁, Run P fills σ σ₁ ∧ Run P fills' σ₁ σ' := by
  induction fills generalizing σ with
  | nil => exact ⟨fun h => ⟨σ, .nil σ, h⟩, fun ⟨_, h, h'⟩ => by cases h; exact h'⟩
  | cons fill fills ih =>
    constructor
    · rintro (_ | ⟨first, rest⟩)
      obtain ⟨σ₁, hrun, hrun'⟩ := ih.mp rest
      exact ⟨σ₁, .cons first hrun, hrun'⟩
    · rintro ⟨σ₁, _ | ⟨first, rest⟩, hrun'⟩
      exact .cons first (ih.mpr ⟨σ₁, rest, hrun'⟩)

theorem memory (h : Run P fills σ σ') : σ'.memory = σ.memory := by
  induction h with
  | nil => rfl
  | cons first _ ih => exact ih.trans first.memory

theorem registers_eq (h : Run P fills σ σ') {reg : RegId}
    (hreg : ∀ fill ∈ fills, P.root fill.dest ≠ reg) :
    σ'.registers reg = σ.registers reg := by
  induction h with
  | nil => rfl
  | cons first _ ih =>
    obtain ⟨hfirst, hrest⟩ := List.forall_mem_cons.mp hreg
    exact (ih hrest).trans (first.others reg hfirst.symm)

theorem eval_eq (h : Run P fills σ σ') {o : Origin} (hspares : ∀ fill ∈ fills, P.Spares o.base fill)
    (width : Nat) : o.eval P σ' width = o.eval P σ width := by
  have hbase : ∀ width, o.base.eval P σ' width = o.base.eval P σ width :=
    Datum.eval_congr (h.registers_eq fun fill hfill => (hspares fill hfill).stack) fun id hid =>
      h.registers_eq fun fill hfill => (hspares fill hfill).register id hid
  cases o with
  | datum x => exact hbase width
  | bytes x offset =>
    have hx : x.eval P σ' t.pointerBits = x.eval P σ t.pointerBits := hbase _
    rw [Origin.eval, Origin.eval, h.memory, hx]

/-- **A fill lasts**: its register ends up with what its origin had at the start, if the fills
before it spare the origin and those behind it write other registers. -/
theorem written (h : Run P (fills ++ fill :: fills') σ σ')
    (hbefore : ∀ e ∈ fills, P.Spares fill.origin.base e)
    (hbehind : ∀ e ∈ fills', P.root e.dest ≠ P.root fill.dest) :
    σ'.read (P.root fill.dest) fill.ty.bits = fill.origin.eval P σ fill.ty.bits := by
  obtain ⟨σ₁, hrun, hrun'⟩ := append_iff.mp h
  cases hrun' with
  | cons first rest =>
    rw [Cpu.read_congr (rest.registers_eq hbehind), first.written, hrun.eval_eq hbefore]

end Run

end Machine

end Retarget
