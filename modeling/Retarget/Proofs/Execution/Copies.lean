import Mathlib.Data.BitVec
import Mathlib.Tactic.Abel
import Retarget.Proofs.Execution.Redundancy
import Retarget.Proofs.Legality.Meaning

/-!
# Copies in memory

A copy of `n` bytes takes them as they were before (`Memory.copy`).  To load a word and store it
elsewhere is such a copy (`storeBits_loadBits`), and a copy whose ends are disjoint can be made
piece by piece (`copy_copy`).  Loads and stores also have a meaning without the bounds of frame
objects (`State.access`); where a run of generic code gets through them, it comes to the same state
(`foldlM_access_of_runCode`).
-/

namespace Retarget.Machine

/-! ## Bytes -/

namespace Memory

variable {p : Nat} {a b x : BitVec p} {n : Nat}

theorem within_iff : Within a n x ↔ (x - a).toNat < n := by
  constructor
  · rintro ⟨i, hi, rfl⟩
    rw [add_sub_cancel_left, BitVec.toNat_ofNat]
    exact Nat.lt_of_le_of_lt (Nat.mod_le _ _) hi
  · intro h
    refine ⟨(x - a).toNat, h, ?_⟩
    rw [BitVec.ofNat_toNat, BitVec.setWidth_eq, BitVec.add_comm, BitVec.sub_add_cancel]

instance (a : BitVec p) (n : Nat) (x : BitVec p) : Decidable (Within a n x) :=
  decidable_of_iff _ within_iff.symm

/-- Places of `n` bytes that have none in common. -/
def Apart (n : Nat) (a b : BitVec p) : Prop := ∀ x, Within a n x → ¬Within b n x

/-- The memory after the `n` bytes from `b` on are copied to `a`. -/
def copy (m : Memory p) (a b : BitVec p) (n : Nat) : Memory p :=
  fun x => if Within a n x then m (x - a + b) else m x

theorem copy_add (m : Memory p) (a b : BitVec p) {i : Nat} (h : i < n) :
    m.copy a b n (a + BitVec.ofNat p i) = m (b + BitVec.ofNat p i) := by
  rw [copy, if_pos ⟨i, h, rfl⟩, add_sub_cancel_left, BitVec.add_comm]

theorem copy_of_not_within (m : Memory p) (b : BitVec p) (h : ¬Within a n x) :
    m.copy a b n x = m x := if_neg h

theorem copy_zero (m : Memory p) (a b : BitVec p) : m.copy a b 0 = m :=
  funext fun _ => if_neg fun ⟨_, hi, _⟩ => absurd hi (Nat.not_lt_zero _)

theorem within_add {k : Nat} :
    Within a (k + n) x ↔ Within a k x ∨ Within (a + BitVec.ofNat p k) n x := by
  constructor
  · rintro ⟨i, hi, rfl⟩
    rcases Nat.lt_or_ge i k with hlt | hge
    · exact .inl ⟨i, hlt, rfl⟩
    · refine .inr ⟨i - k, by omega, ?_⟩
      rw [BitVec.add_assoc, ← BitVec.ofNat_add, Nat.add_sub_cancel' hge]
  · rintro (⟨i, hi, rfl⟩ | ⟨i, hi, rfl⟩)
    · exact ⟨i, by omega, rfl⟩
    · exact ⟨k + i, by omega, by rw [BitVec.add_assoc, ← BitVec.ofNat_add]⟩

theorem copy_copy (m : Memory p) {k : Nat} (h : Apart (k + n) a b) :
    (m.copy a b k).copy (a + BitVec.ofNat p k) (b + BitVec.ofNat p k) n = m.copy a b (k + n) := by
  funext x
  by_cases hthen : Within (a + BitVec.ofNat p k) n x
  · obtain ⟨i, hi, rfl⟩ := hthen
    rw [copy_add _ _ _ hi]
    have hmiss : ¬Within a k (b + BitVec.ofNat p k + BitVec.ofNat p i) := fun hmem =>
      h _ (within_add.mpr (.inl hmem)) (within_add.mpr (.inr ⟨i, hi, rfl⟩))
    rw [copy_of_not_within _ _ hmiss, BitVec.add_assoc, BitVec.add_assoc, ← BitVec.ofNat_add,
      copy_add _ _ _ (Nat.add_lt_add_left hi k)]
  · rw [copy_of_not_within _ _ hthen]
    by_cases hfirst : Within a k x
    · obtain ⟨i, hi, rfl⟩ := hfirst
      rw [copy_add _ _ _ hi, copy_add _ _ _ (Nat.lt_add_right n hi)]
    · rw [copy_of_not_within _ _ hfirst,
        copy_of_not_within _ _ fun h => (within_add.mp h).elim hfirst hthen]

/-! ## Words -/

theorem load_lt (m : Memory p) (a : BitVec p) (n : Nat) : m.load a n < 256 ^ n := by
  induction n generalizing a with
  | zero => exact Nat.one_pos
  | succ n ih =>
    have hbyte : (m a).toNat < 256 := (m a).isLt
    have hrest := ih (a + 1)
    rw [load, Nat.pow_succ']
    omega

theorem store_load (m m' : Memory p) (a b : BitVec p) (n : Nat) :
    m'.store a n (m.load b n) = fun x => if Within a n x then m (x - a + b) else m' x := by
  induction n generalizing a b with
  | zero =>
    funext x
    exact (if_neg fun ⟨_, hi, _⟩ => absurd hi (Nat.not_lt_zero _)).symm
  | succ n ih =>
    have hbyte : (m b).toNat < 256 := (m b).isLt
    funext x
    show (if x = a then _ else _) = _
    by_cases hx : x = a
    · subst hx
      rw [if_pos rfl, if_pos (within_succ.mpr (.inl rfl)), BitVec.sub_self, BitVec.zero_add]
      apply BitVec.eq_of_toNat_eq
      rw [BitVec.toNat_ofNat, load, Nat.add_mul_mod_self_left, Nat.mod_eq_of_lt hbyte]
    · have hrest : m.load b (n + 1) / 256 = m.load (b + 1) n := by
        rw [load, Nat.add_mul_div_left _ _ (by decide), Nat.div_eq_of_lt hbyte, Nat.zero_add]
      have hwithin : Within a (n + 1) x ↔ Within (a + 1) n x := by
        rw [within_succ, or_iff_right hx]
      have hsame : x - (a + 1) + (b + 1) = x - a + b := by abel
      rw [if_neg hx, hrest, ih]
      simp only [hwithin, hsame]

theorem storeBits_loadBits (m : Memory p) (a b : BitVec p) (n : Nat) :
    m.storeBits a (m.loadBits b (n * 8)) = m.copy a b n := by
  have hcount : byteCount (n * 8) = n := by
    rw [byteCount]
    omega
  have hlt : m.load b n < 2 ^ (n * 8) := by
    rw [Nat.mul_comm, Nat.pow_mul]
    exact load_lt m b n
  rw [storeBits, loadBits, hcount, BitVec.toNat_ofNat, Nat.mod_eq_of_lt hlt, store_load]
  rfl

end Memory

/-! ## Accesses without bounds -/

variable {M : Interpretation} {f : Function} {frame : Frame} {s s' : State M} {i : Instruction}
  {is : List Instruction} {o place : Operand} {r : RegId} {ty : LowType} {x : Option Exit}

/-- The address that an operand names, whether or not the frame object reaches that far. -/
def Operand.place? (o : Operand) (s : State M) : Option (BitVec M.pointerBits) :=
  match o.kind with
  | .memory r offset =>
    ((s.regs r).bind (·.read? M.pointerBits)).map (· + BitVec.ofInt M.pointerBits offset)
  | .stack slot offset => some (M.address (slot, offset))
  | _ => none

/-- A load or a store, at whatever address it names. -/
def State.access (s : State M) (i : Instruction) : Option (State M) :=
  match i.generic?, i.operands with
  | some .load, [dest, place] => do
    let a ← place.place? s
    s.assign dest ⟨dest.size, s.memory.loadBits a dest.size⟩
  | some .store, [place, source] => do
    let a ← place.place? s
    let value ← source.eval {} s
    return s.store a (← value.toBits M)
  | _, _ => none

/-- A load into a virtual register, or a store of one. -/
inductive Instruction.IsAccess : Instruction → Prop
  | load (r : RegId) (ty : LowType) (place : Operand) :
    IsAccess (.generic .load [.virtualReg r ty, place])
  | store (place : Operand) (r : RegId) (ty : LowType) :
    IsAccess (.generic .store [place, .virtualReg r ty])

theorem place?_of_eval {a : BitVec M.pointerBits} {room : Option Nat}
    (h : o.eval frame s = some (.place a room)) : o.place? s = some a := by
  rw [Operand.eval] at h
  rw [Operand.place?]
  split at h
  case h_5 r offset hkind =>
    rw [hkind]
    obtain ⟨b, hb, h⟩ := Option.map_eq_some_iff.mp h
    cases h
    exact Option.map_eq_some_iff.mpr ⟨b, hb, rfl⟩
  case h_6 slot offset hkind =>
    rw [hkind]
    obtain ⟨n, -, h⟩ := Option.map_eq_some_iff.mp h
    cases h
    rfl
  case h_1 | h_2 | h_3 =>
    obtain ⟨w, -, h⟩ := Option.map_eq_some_iff.mp h
    cases h
  all_goals cases h

theorem access_load {a : BitVec M.pointerBits} (h : place.place? s = some a) :
    s.access (.generic .load [.virtualReg r ty, place]) =
      some (s.write r ⟨ty.bits, s.memory.loadBits a ty.bits⟩) := by
  show (place.place? s).bind _ = _
  rw [h]
  rfl

theorem access_store {a : BitVec M.pointerBits} {value : Bits} (h : place.place? s = some a)
    (hvalue : (Operand.virtualReg r ty).eval {} s = some (.bits value)) :
    s.access (.generic .store [place, .virtualReg r ty]) = some (s.store a value) := by
  show (place.place? s).bind _ = _
  rw [h, Option.bind_some]
  show ((Operand.virtualReg r ty).eval {} s).bind _ = _
  rw [hvalue]
  rfl

theorem eval_virtualReg_eq_some {arg : Arg M.pointerBits}
    (h : (Operand.virtualReg r ty).eval frame s = some arg) :
    ∃ w : BitVec ty.bits, arg = .bits ⟨ty.bits, w⟩ := by
  obtain ⟨w, -, rfl⟩ := Option.map_eq_some_iff.mp h
  exact ⟨w, rfl⟩

/-- Where a run of generic code gets through an access, the address is all that matters. -/
theorem access_of_runCode {res : Option Exit × State M} (hi : i.IsAccess)
    (h : f.runCode (i :: is) s = some res) :
    ∃ s₁, s.access i = some s₁ ∧ f.runCode is s₁ = some res := by
  rw [Function.runCode] at h
  obtain ⟨e, he, h⟩ := Option.bind_eq_some_iff.mp h
  obtain ⟨⟨y, s₁⟩, happly, h⟩ := Option.bind_eq_some_iff.mp h
  cases hi with
  | load r ty place =>
    have hop : (Instruction.generic .load [.virtualReg r ty, place]).generic? = some .load := rfl
    rw [f.effectAt_eq hop] at he
    obtain ⟨op, args, hexec⟩ := effectOf_eq_some.mp he
    cases hexec.generic
    obtain ⟨arg, harg, rfl⟩ := mapM₁_eq_some.mp hexec.evaluates
    cases effect_cases hexec.effect with
    | assign hdest hvalue =>
      cases hdest
      obtain ⟨a, room, heq, rfl⟩ := produce_load hvalue
      cases heq
      cases happly
      exact ⟨_, access_load (place?_of_eval harg), h⟩
    | _ => simp_all
  | store place r ty =>
    have hop : (Instruction.generic .store [place, .virtualReg r ty]).generic? = some .store := rfl
    rw [f.effectAt_eq hop] at he
    obtain ⟨op, args, hexec⟩ := effectOf_eq_some.mp he
    cases hexec.generic
    obtain ⟨arg, source, harg, hsource, rfl⟩ := mapM₂_eq_some.mp hexec.evaluates
    cases effect_cases hexec.effect with
    | store hop hargs hbits hroom =>
      cases hargs
      obtain ⟨w, rfl⟩ := eval_virtualReg_eq_some hsource
      cases hbits
      cases happly
      exact ⟨_, access_store (place?_of_eval harg) hsource, h⟩
    | assign hdest hvalue => cases hdest
    | _ => simp_all

theorem foldlM_access_of_runCode (his : ∀ i ∈ is, i.IsAccess)
    (h : f.runCode is s = some (x, s')) : x = none ∧ is.foldlM State.access s = some s' := by
  induction is generalizing s with
  | nil =>
    cases h
    exact ⟨rfl, rfl⟩
  | cons i is ih =>
    obtain ⟨hi, his⟩ := List.forall_mem_cons.mp his
    obtain ⟨s₁, haccess, hrest⟩ := access_of_runCode hi h
    obtain ⟨rfl, hfold⟩ := ih his hrest
    refine ⟨rfl, ?_⟩
    rw [List.foldlM_cons, haccess]
    exact hfold

/-- The frame object has room for so many bytes. -/
def Operand.InBounds (o : Operand) (frame : Frame) (bytes : Nat) : Prop :=
  match o.kind with
  | .stack slot offset => ∃ room, frame.room? (slot, offset) = some room ∧ bytes ≤ room
  | _ => True

/-- A place from which on the frame object has so many bytes. -/
def Operand.Spans (o : Operand) (frame : Frame) (n : Nat) : Prop :=
  match o.kind with
  | .stack slot offset =>
    ∃ size, frame.objectSize? slot = some size ∧ 0 ≤ offset ∧ offset + n ≤ (size : Int)
  | _ => True

/-- The access stays inside of the frame object. -/
def Instruction.StaysInside (i : Instruction) (frame : Frame) : Prop :=
  match i.operands with
  | [first, second] =>
    first.InBounds frame (byteCount second.size) ∧ second.InBounds frame (byteCount first.size)
  | _ => True

theorem eval_of_place? {a : BitVec M.pointerBits} {n : Nat} (h : o.place? s = some a)
    (hin : o.InBounds frame (byteCount n)) :
    ∃ room, o.eval frame s = some (.place a room) ∧ hasRoom room n := by
  rw [Operand.place?] at h
  rw [Operand.InBounds] at hin
  rw [Operand.eval]
  split at h
  case h_1 r offset hkind =>
    rw [hkind]
    obtain ⟨b, hb, rfl⟩ := Option.map_eq_some_iff.mp h
    exact ⟨none, Option.map_eq_some_iff.mpr ⟨b, hb, rfl⟩, rfl⟩
  case h_2 slot offset hkind =>
    rw [hkind] at hin ⊢
    cases h
    obtain ⟨room, hroom, hle⟩ := hin
    exact ⟨some room, Option.map_eq_some_iff.mpr ⟨room, hroom, rfl⟩, decide_eq_true hle⟩
  case h_3 => cases h

theorem runCode_of_access (hi : i.IsAccess) (hin : i.StaysInside f.frame)
    (h : s.access i = some s') : f.runCode (i :: is) s = f.runCode is s' := by
  cases hi with
  | load r ty place =>
    obtain ⟨a, ha, h⟩ := Option.bind_eq_some_iff.mp h
    cases h
    obtain ⟨room, heval, hroom⟩ := eval_of_place? (n := ty.bits) ha hin.2
    have hloaded : produce .load none ty.bits s.memory [.place a room] =
        some (s.memory.loadBits a ty.bits) := if_pos hroom
    have hexec : Executes f s (.generic .load [.virtualReg r ty, place]) .load [.place a room]
        (.assign (.virtualReg r ty) ⟨ty.bits, s.memory.loadBits a ty.bits⟩) := by
      refine ⟨rfl, rfl, mapM₁_eq_some.mpr ⟨_, heval, rfl⟩, ?_⟩
      exact (effect_of_defines rfl _ _).trans (congrArg (Option.map _) hloaded)
    rw [Function.runCode, hexec.effectAt_eq]
    rfl
  | store place r ty =>
    obtain ⟨a, ha, h⟩ := Option.bind_eq_some_iff.mp h
    obtain ⟨source, hsource, h⟩ := Option.bind_eq_some_iff.mp h
    obtain ⟨w, rfl⟩ := eval_virtualReg_eq_some hsource
    cases h
    obtain ⟨room, heval, hroom⟩ := eval_of_place? (n := ty.bits) ha hin.1
    have hexec : Executes f s (.generic .store [place, .virtualReg r ty]) .store
        [.place a room, .bits ⟨ty.bits, w⟩] (.store a ⟨ty.bits, w⟩) := by
      refine ⟨rfl, rfl, mapM₂_eq_some.mpr ⟨_, _, heval, hsource, rfl⟩, ?_⟩
      exact if_pos hroom
    rw [Function.runCode, hexec.effectAt_eq]
    rfl

theorem runCode_of_foldlM_access (his : ∀ i ∈ is, i.IsAccess)
    (hin : ∀ i ∈ is, i.StaysInside f.frame) (h : is.foldlM State.access s = some s') :
    f.runCode is s = some (none, s') := by
  induction is generalizing s with
  | nil =>
    cases h
    rfl
  | cons i is ih =>
    obtain ⟨hi, his⟩ := List.forall_mem_cons.mp his
    obtain ⟨hfirst, hin⟩ := List.forall_mem_cons.mp hin
    rw [List.foldlM_cons] at h
    obtain ⟨s₁, haccess, hrest⟩ := Option.bind_eq_some_iff.mp h
    rw [runCode_of_access hi hfirst haccess]
    exact ih his hin hrest

end Retarget.Machine
