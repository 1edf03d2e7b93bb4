import Retarget.Proofs.Execution.Copies
import Retarget.Proofs.Lowering.Placement

/-!
# Copies that lowering emits

A copy goes piece by piece through new registers.  The pieces lie back to back and fill the bytes to
be copied (`tiles_pieces`), so executing the loads and stores copies all of them and nothing else
(`isCopy_copyCode`).  What is copied for an instruction is what its pointers point to
(`copies_exact`).
-/

namespace Retarget.Lowering

open Machine

variable {M : Interpretation} {c : Scope} {s s' s₁ s₂ : State} {v : Ir.Value}
  {o dest source : Operand} {g : Machine.Function} {σ σ₁ : Machine.State M} {f : Ir.Function}
  {p : Piece} {ps : List Piece} {r : RegId} {i n registerBytes : Nat} {code : List Instruction}

/-! ## Pieces -/

/-- Pieces that lie back to back from byte `i` on and end before byte `n`, each as large as a
register or a part of one. -/
inductive Tiles (registerBytes : Nat) : Nat → Nat → List Piece → Prop
  | nil (n : Nat) : Tiles registerBytes n n []
  | cons {i n bytes : Nat} {ps : List Piece} (hbytes : bytes ∈ [8, 4, 2, 1])
    (hle : bytes ≤ registerBytes) (h : Tiles registerBytes (i + bytes) n ps) :
    Tiles registerBytes i n (⟨i, .integer (bytes * 8)⟩ :: ps)

theorem Tiles.le (h : Tiles registerBytes i n ps) : i ≤ n := by
  induction h with
  | nil => exact Nat.le_refl _
  | cons hbytes hle h ih => omega

theorem pieceSize_le (registerBytes : Nat) (hpos : 0 < n) : pieceSize registerBytes n ≤ n := by
  rw [pieceSize]
  cases h : [registerBytes, 4, 2, 1].find? fun k => 0 < k && k ≤ n && k ≤ registerBytes with
  | none => exact hpos
  | some k =>
    have hk := List.find?_some h
    simp only [Bool.and_eq_true, decide_eq_true_eq] at hk
    exact hk.1.2

theorem pieceSize_mem (hregister : registerBytes = 4 ∨ registerBytes = 8) (hpos : 0 < n) :
    pieceSize registerBytes n ∈ [8, 4, 2, 1] ∧ pieceSize registerBytes n ≤ registerBytes := by
  rw [pieceSize]
  cases h : [registerBytes, 4, 2, 1].find? fun k => 0 < k && k ≤ n && k ≤ registerBytes with
  | none =>
    -- a byte always fits
    have hone := List.find?_eq_none.mp h 1 (by simp)
    simp only [Bool.and_eq_true, decide_eq_true_eq, not_and] at hone
    omega
  | some k =>
    have hk := List.find?_some h
    simp only [Bool.and_eq_true, decide_eq_true_eq] at hk
    have hmem := List.mem_of_find?_eq_some h
    refine ⟨?_, hk.2⟩
    rw [Option.getD_some]
    rcases hregister with rfl | rfl <;> simp at hmem ⊢ <;> omega

theorem exists_of_mem_piecesFrom (h : p ∈ piecesFrom i (pieceSizes registerBytes n)) :
    ∃ j size, p = ⟨(j : Nat), .integer (size * 8)⟩ ∧ 0 < size ∧ j + size ≤ i + n := by
  induction n using Nat.strongRecOn generalizing i with
  | ind n ih =>
    rw [pieceSizes] at h
    split at h
    · cases h
    · next hne =>
      have hsize := pieceSize_pos registerBytes n
      have hle := pieceSize_le registerBytes (Nat.pos_of_ne_zero hne)
      rcases List.mem_cons.mp h with rfl | h
      · exact ⟨i, _, rfl, hsize, Nat.add_le_add_left hle i⟩
      · obtain ⟨j, size, rfl, hpos, hend⟩ := ih _ (by omega) h
        exact ⟨j, size, rfl, hpos, by omega⟩

theorem tiles_piecesFrom (hregister : registerBytes = 4 ∨ registerBytes = 8) (i n : Nat) :
    Tiles registerBytes i (i + n) (piecesFrom i (pieceSizes registerBytes n)) := by
  induction n using Nat.strongRecOn generalizing i with
  | ind n ih =>
    rw [pieceSizes]
    split
    · next hzero =>
      subst hzero
      exact .nil i
    · next hpos =>
      obtain ⟨hmem, hle⟩ := pieceSize_mem hregister (Nat.pos_of_ne_zero hpos)
      have hfits := pieceSize_le registerBytes (Nat.pos_of_ne_zero hpos)
      have hsize := pieceSize_pos registerBytes n
      have hrest := ih (n - pieceSize registerBytes n) (by omega)
        (i + pieceSize registerBytes n)
      rw [show i + pieceSize registerBytes n + (n - pieceSize registerBytes n) = i + n by omega]
        at hrest
      exact .cons hmem hle hrest

/-- **The pieces of some bytes are a partition of them.** -/
theorem tiles_pieces (hregister : registerBytes = 4 ∨ registerBytes = 8) (n : Nat) :
    Tiles registerBytes 0 n (pieces registerBytes n) := by
  simpa [pieces] using tiles_piecesFrom hregister 0 n

/-! ## Copies of pieces -/

/-- The code that copies pieces, each through one more register. -/
def copyCode (dest source : Operand) : RegId → List Piece → List Instruction
  | _, [] => []
  | r, p :: ps =>
    .generic .load [.virtualReg r p.ty, p.of source] ::
      .generic .store [p.of dest, .virtualReg r p.ty] :: copyCode dest source (r + 1) ps

theorem run_emitPieces (h : (ps.forM (Scope.emitPieceCopy dest source)).run s = .ok ((), s')) :
    s'.code.toList = s.code.toList ++ copyCode dest source s.next ps ∧ s.Continues s' := by
  induction ps generalizing s with
  | nil =>
    cases h
    exact ⟨(List.append_nil _).symm, .refl _⟩
  | cons p ps ih =>
    rw [List.forM] at h
    obtain ⟨_, s₁, hfirst, h⟩ := run_bind_eq_ok.mp h
    obtain ⟨_, s₂, hfresh, hfirst⟩ := run_bind_eq_ok.mp hfirst
    obtain ⟨rfl, rfl⟩ := run_freshReg_eq_ok hfresh
    obtain ⟨_, s₃, hload, hstore⟩ := run_bind_eq_ok.mp hfirst
    rw [run_emit] at hload hstore
    cases hload
    cases hstore
    obtain ⟨hcode, hle⟩ := ih h
    refine ⟨?_, .trans (.numbered s) (.trans (.append _ _) (.trans (.append _ _) hle))⟩
    rw [hcode, State.code_append, State.code_append, copyCode]
    simp [State.numbered, State.append, State.next]

theorem isAccess_copyCode (dest source : Operand) (r : RegId) (ps : List Piece) :
    ∀ i ∈ copyCode dest source r ps, i.IsAccess := by
  induction ps generalizing r with
  | nil => simp [copyCode]
  | cons p ps ih =>
    rw [copyCode]
    exact List.forall_mem_cons.mpr ⟨.load _ _ _, List.forall_mem_cons.mpr ⟨.store _ _ _, ih _⟩⟩

theorem place?_piece (p : Piece) {a : BitVec M.pointerBits} (h : o.place? σ = some a) :
    (p.of o).place? σ = some (a + BitVec.ofInt _ p.offset) := by
  obtain ⟨kind, ty, regClass⟩ := o
  cases kind with
  | memory base offset =>
    obtain ⟨b, hb, rfl⟩ := Option.map_eq_some_iff.mp h
    refine Option.map_eq_some_iff.mpr ⟨b, hb, ?_⟩
    rw [BitVec.ofInt_add, BitVec.add_assoc]
  | stack slot offset =>
    cases h
    show some (M.address (slot, offset + p.offset)) = _
    rw [Interpretation.address, Interpretation.address, BitVec.ofInt_add, BitVec.add_assoc]
  | _ => cases h

theorem place?_congr {σ' : Machine.State M}
    (h : ∀ x, o.unallocated? = some x → σ'.regs x = σ.regs x) : o.place? σ' = o.place? σ := by
  obtain ⟨kind, ty, regClass⟩ := o
  cases kind with
  | memory base offset => simp only [Operand.place?, h base rfl]
  | _ => rfl

/-- **Executing the code copies all bytes of the pieces**, and changes new registers besides. -/
theorem foldlM_copyCode (h : Tiles registerBytes i n ps) {a b : BitVec M.pointerBits}
    (hdest : dest.place? σ = some a) (hsource : source.place? σ = some b)
    (hdests : ∀ x, dest.unallocated? = some x → x < r)
    (hsources : ∀ x, source.unallocated? = some x → x < r) (hapart : Memory.Apart n a b) :
    ∃ σ', (copyCode dest source r ps).foldlM State.access σ = some σ' ∧
      σ'.memory = σ.memory.copy (a + BitVec.ofNat _ i) (b + BitVec.ofNat _ i) (n - i) ∧
      (∀ x < r, σ'.regs x = σ.regs x) ∧ σ'.block = σ.block ∧ σ'.physical = σ.physical := by
  induction h generalizing r σ with
  | nil n =>
    refine ⟨σ, rfl, ?_, fun _ _ => rfl, rfl, rfl⟩
    rw [Nat.sub_self, Memory.copy_zero]
  | @cons i n bytes ps hbytes hle hrest ih =>
    have hend := hrest.le
    -- one piece
    have hload := place?_piece ⟨i, .integer (bytes * 8)⟩ hsource
    have hstore := place?_piece ⟨i, .integer (bytes * 8)⟩ hdest
    rw [BitVec.ofInt_natCast] at hload hstore
    let loaded := σ.memory.loadBits (b + BitVec.ofNat _ i) (bytes * 8)
    let σ₁ := σ.write r ⟨bytes * 8, loaded⟩
    have hregs : ∀ x < r, σ₁.regs x = σ.regs x := fun x hx => if_neg (Nat.ne_of_lt hx)
    have hkept : ∀ o : Operand, (∀ x, o.unallocated? = some x → x < r) →
        o.place? σ₁ = o.place? σ := fun o ho => place?_congr fun x hx => hregs x (ho x hx)
    have hstored : σ₁.access (.generic .store [Piece.of ⟨i, .integer (bytes * 8)⟩ dest,
        .virtualReg r (.integer (bytes * 8))]) =
        some (σ₁.store (a + BitVec.ofNat _ i) ⟨bytes * 8, loaded⟩) := by
      refine access_store ?_ (Operand.eval_virtualReg_write r (.integer (bytes * 8)) loaded)
      have hpiece := place?_piece ⟨i, .integer (bytes * 8)⟩ ((hkept dest hdests).trans hdest)
      rwa [BitVec.ofInt_natCast] at hpiece
    -- the others
    let σ₂ := σ₁.store (a + BitVec.ofNat _ i) ⟨bytes * 8, loaded⟩
    have hmemory : σ₂.memory =
        σ.memory.copy (a + BitVec.ofNat _ i) (b + BitVec.ofNat _ i) bytes :=
      Memory.storeBits_loadBits σ.memory _ _ bytes
    obtain ⟨σ', hfold, hcopy, hregs', hblock, hphysical⟩ := ih (r := r + 1) (σ := σ₂)
      ((hkept dest hdests).trans hdest) ((hkept source hsources).trans hsource)
      (fun x hx => Nat.lt_succ_of_lt (hdests x hx))
      (fun x hx => Nat.lt_succ_of_lt (hsources x hx)) hapart
    refine ⟨σ', ?_, ?_, fun x hx => (hregs' x (Nat.lt_succ_of_lt hx)).trans (hregs x hx),
      hblock, hphysical⟩
    · rw [copyCode, List.foldlM_cons, access_load hload]
      show (σ₁.access _).bind _ = _
      rw [hstored]
      exact hfold
    · have hbehind : Memory.Apart (bytes + (n - (i + bytes))) (a + BitVec.ofNat _ i)
          (b + BitVec.ofNat _ i) := fun x hx hx' => by
        have hn : i + (bytes + (n - (i + bytes))) = n := by omega
        exact hapart x (hn ▸ Memory.within_add.mpr (.inr hx))
          (hn ▸ Memory.within_add.mpr (.inr hx'))
      rw [hcopy, hmemory, BitVec.ofNat_add, ← BitVec.add_assoc, ← BitVec.add_assoc,
        Memory.copy_copy σ.memory hbehind]
      congr 1
      omega

theorem inBounds_piece {frame : Frame} {bytes : Nat} (h : o.Spans frame n) (hle : i + bytes ≤ n) :
    (Piece.of ⟨i, .integer (bytes * 8)⟩ o).InBounds frame bytes := by
  obtain ⟨kind, ty, regClass⟩ := o
  cases kind with
  | stack slot offset =>
    obtain ⟨size, hsize, hlow, hhigh⟩ := h
    refine ⟨size - (offset + i).toNat, ?_, by omega⟩
    have hlow' : 0 ≤ offset + (i : Int) := by omega
    show (frame.objectSize? slot).map _ = _
    rw [hsize, Option.map_some, if_pos hlow']
  | _ => trivial

theorem staysInside_copyCode {frame : Frame} (h : Tiles registerBytes i n ps)
    (hdest : dest.Spans frame n) (hsource : source.Spans frame n) (r : RegId) :
    ∀ i ∈ copyCode dest source r ps, i.StaysInside frame := by
  induction h generalizing r with
  | nil => simp [copyCode]
  | @cons i n bytes ps hbytes hle hrest ih =>
    have hcount : byteCount (bytes * 8) = bytes := by
      rw [byteCount]
      omega
    have hin : ∀ {o : Operand}, o.Spans frame n →
        (Piece.of ⟨i, .integer (bytes * 8)⟩ o).InBounds frame (byteCount (bytes * 8)) := by
      intro o ho
      rw [hcount]
      exact inBounds_piece ho hrest.le
    rw [copyCode]
    exact List.forall_mem_cons.mpr ⟨⟨trivial, hin hsource⟩,
      List.forall_mem_cons.mpr ⟨⟨hin hdest, trivial⟩, ih hdest hsource (r + 1)⟩⟩

/-- The code is the loads and stores of consecutive pieces of `n` bytes, through registers from `r`
on.  Wherever source and destination have no byte in common, executing them makes each of the bytes
at the destination the one at the source, and changes no other byte of memory.  This is what generic
code does, as far as it has a meaning, and inside of frame objects it has. -/
structure IsCopy (registerBytes n : Nat) (dest source : Operand) (r : RegId)
    (code : List Instruction) : Prop where
  pieces : ∃ ps, Tiles registerBytes 0 n ps ∧ code = copyCode dest source r ps
  exact : ∀ {M : Interpretation} (σ : Machine.State M) a b, dest.place? σ = some a →
    source.place? σ = some b → Memory.Apart n a b →
    ∃ σ', code.foldlM State.access σ = some σ' ∧
      (∀ i < n, σ'.memory (a + BitVec.ofNat _ i) = σ.memory (b + BitVec.ofNat _ i)) ∧
      (∀ x, ¬Memory.Within a n x → σ'.memory x = σ.memory x) ∧
      (∀ x < r, σ'.regs x = σ.regs x) ∧ σ'.block = σ.block ∧ σ'.physical = σ.physical
  generic : ∀ {M : Interpretation} (g : Machine.Function) (σ σ' : Machine.State M) x,
    g.runCode code σ = some (x, σ') → x = none ∧ code.foldlM State.access σ = some σ'
  bounded : ∀ {M : Interpretation} (g : Machine.Function) (σ σ' : Machine.State M),
    dest.Spans g.frame n → source.Spans g.frame n → code.foldlM State.access σ = some σ' →
    g.runCode code σ = some (none, σ')

theorem isCopy_copyCode (h : Tiles registerBytes 0 n ps)
    (hdests : ∀ x, dest.unallocated? = some x → x < r)
    (hsources : ∀ x, source.unallocated? = some x → x < r) :
    IsCopy registerBytes n dest source r (copyCode dest source r ps) where
  pieces := ⟨ps, h, rfl⟩
  exact σ a b hdest hsource hapart := by
    obtain ⟨σ', hfold, hmemory, hregs⟩ := foldlM_copyCode h hdest hsource hdests hsources hapart
    rw [BitVec.add_zero, BitVec.add_zero, Nat.sub_zero] at hmemory
    refine ⟨σ', hfold, fun i hi => ?_, fun x hx => ?_, hregs⟩
    · rw [hmemory, Memory.copy_add _ _ _ hi]
    · rw [hmemory, Memory.copy_of_not_within _ _ hx]
  generic g σ σ' x hrun := foldlM_access_of_runCode (isAccess_copyCode _ _ _ _) hrun
  bounded g σ σ' hdest hsource hfold :=
    runCode_of_foldlM_access (isAccess_copyCode _ _ _ _) (staysInside_copyCode h hdest hsource r)
      hfold

/-- **What is emitted for a copy copies.** -/
theorem isCopy_of_emitCopy (hregister : c.target.pointerBytes = 4 ∨ c.target.pointerBytes = 8)
    (hdest : ∀ x, dest.unallocated? = some x → x < s.next)
    (hsource : ∀ x, source.unallocated? = some x → x < s.next)
    (h : (c.emitCopy dest source n).run s = .ok ((), s')) :
    s.Continues s' ∧ ∃ code, s'.code.toList = s.code.toList ++ code ∧
      IsCopy c.target.pointerBytes n dest source s.next code := by
  obtain ⟨hcode, hle⟩ := run_emitPieces h
  exact ⟨hle, _, hcode, isCopy_copyCode (tiles_pieces hregister n) hdest hsource⟩

/-! ## What pointers point to -/

/-- The place in memory that a pointer stands for. -/
def State.points? (c : Scope) (s : State) (σ : Machine.State M) (v : Ir.Value) :
    Option (BitVec M.pointerBits) :=
  match s.addressBits? M v with
  | some a => some a
  | none => (s.bits? c σ v).bind (·.read? M.pointerBits)

/-- The base of a memory operand is read at the width of an address. -/
theorem read?_of_eval {frame : Frame} {b : Bits} {w : BitVec n} (hr : o.unallocated? = some r)
    (h : o.eval frame σ = some (.bits b)) (hw : b.read? n = some w) :
    (σ.regs r).bind (·.read? n) = some w := by
  have hregister : ((σ.regs r).bind (·.read? o.size)).map
      (fun v => (.bits ⟨o.size, v⟩ : Arg M.pointerBits)) = some (.bits b) := by
    rw [Operand.unallocated?] at hr
    rw [Operand.eval] at h
    split at hr
    · next hkind =>
      cases hr
      rwa [hkind] at h
    · next hkind =>
      cases hr
      rwa [hkind] at h
    · next hkind =>
      rw [hkind] at h
      obtain ⟨_, -, h⟩ := Option.map_eq_some_iff.mp h
      cases h
    · cases hr
  obtain ⟨v, hv, heq⟩ := Option.map_eq_some_iff.mp hregister
  cases heq
  obtain ⟨held, hheld, hread⟩ := Option.bind_eq_some_iff.mp hv
  rw [hheld, Option.bind_some]
  rw [Bits.read?] at hread hw ⊢
  split at hread
  · next hle =>
    cases hread
    split at hw
    · next hle' =>
      cases hw
      rw [if_pos (Nat.le_trans hle' hle), BitVec.setWidth_setWidth_of_le _ hle']
    · cases hw
  · cases hread

/-- **The memory operand for a pointer names what the pointer points to.** -/
theorem exists_location {ty : LowType} (hs : Tracked c.target s)
    (h : (c.location v ty).run s = .ok (o, s₁)) :
    s.Continues s₁ ∧ Tracked c.target s₁ ∧ o.IsPlainPlace c.target s₁.next ∧
      ∃ code, s₁.code.toList = s.code.toList ++ code ∧
        ∀ {M : Interpretation} {g : Machine.Function}, M.pointerBits = c.target.pointerBits →
          s.Framed g → ∀ σ : Machine.State M, ∃ σ₁, g.runCode code σ = some (none, σ₁) ∧
            Spares s s₁ σ σ₁ ∧ ∀ s' a, s₁.Continues s' → s'.points? c σ v = some a →
              o.place? σ₁ = some a := by
  obtain ⟨hs₁, -, hplace⟩ := (leads_location hs v ty).ok o s₁ h
  rw [Scope.location, run_get_bind] at h
  cases hslot : s.frameObject? v with
  | some slot =>
    rw [hslot] at h
    cases h
    refine ⟨.refl s, hs₁, hplace, [], (List.append_nil _).symm, ?_⟩
    refine fun {M g} _ _ σ => ⟨σ, rfl, .refl s s σ, fun s' a hs' ha => ?_⟩
    have haddress : s'.addressBits? M v = some (M.address (slot, 0)) := by
      rw [hs'.addressBits?]
      simp only [State.addressBits?, hslot]
    rw [State.points?, haddress] at ha
    cases ha
    rfl
  | none =>
    rw [hslot] at h
    dsimp only at h
    split at h
    · cases h
    · obtain ⟨base, s₂, hoperand, h⟩ := run_bind_eq_ok.mp h
      obtain ⟨code, hbase⟩ := evaluates_operand hs hoperand
      cases hreg : base.unallocated? with
      | none =>
        rw [hreg] at h
        cases h
      | some reg =>
        rw [hreg] at h
        cases h
        refine ⟨hbase.continues, hs₁, hplace, code, hbase.code_eq, fun {M g} hM hg σ => ?_⟩
        obtain ⟨σ₁, hrun, hspares, heval⟩ := hbase.run hM hg σ
        refine ⟨σ₁, hrun, hspares, fun s' a hs' ha => ?_⟩
        obtain ⟨b, hb, hread⟩ : ∃ b, s'.bits? c σ v = some b ∧ b.read? M.pointerBits = some a := by
          cases haddress : s'.addressBits? M v with
          | none =>
            rw [State.points?, haddress] at ha
            exact Option.bind_eq_some_iff.mp ha
          | some a' =>
            rw [State.points?, haddress] at ha
            cases ha
            -- only a symbol has an address without a frame object
            cases v with
            | global name ty =>
              refine ⟨⟨M.pointerBits, a⟩, ?_, by simp [Bits.read?]⟩
              rw [State.bits?, haddress]
              rfl
            | _ =>
              rw [hbase.continues.trans hs' |>.addressBits?] at haddress
              simp [State.addressBits?, hslot] at haddress
        have hbits : base.eval g.frame σ₁ = some (.bits b) := by
          rw [heval s' hs', hspares.bits? hs hbase.continues hs', hb]
          rfl
        show Option.map _ _ = _
        rw [read?_of_eval hreg hbits hread, Option.map_some]
        exact congrArg some (BitVec.add_zero a)

theorem Spares.points? {σ' : Machine.State M} (h : Spares s s₁ σ σ') (hs : Tracked c.target s)
    (hle : s.Continues s₁) (hle' : s₁.Continues s') (v : Ir.Value) :
    s'.points? c σ' v = s'.points? c σ v := by
  simp only [State.points?, h.bits? hs hle hle']

theorem Spares.place? {σ' : Machine.State M} (h : Spares s s₁ σ σ')
    (ho : o.IsPlainPlace c.target s.next) : o.place? σ' = o.place? σ :=
  place?_congr fun x hx => Agree.regs h x fun hscratch =>
    absurd (ho.plain.id_lt x hx) (Nat.not_lt.mpr hscratch.new)

/-! ## Copies of instructions -/

/-- An end of a copy: what a pointer points to, or a frame object. -/
inductive CopyEnd where
  | pointer (v : Ir.Value)
  | object (slot : Slot)

def CopyEnd.address? (e : CopyEnd) (c : Scope) (s : State) (σ : Machine.State M) :
    Option (BitVec M.pointerBits) :=
  match e with
  | .pointer v => s.points? c σ v
  | .object slot => some (M.address (slot, 0))

/-- The code puts the bases of the two ends into registers, as far as that is needed, and then
copies `n` bytes.  Values are in the registers that they have behind the instruction, and where they
were before it otherwise. -/
def CopiesBytes (c : Scope) (s s' : State) (dest source : CopyEnd) (n : Nat)
    (code : List Instruction) : Prop :=
  ∃ before copying o o' r, code = before ++ copying ∧ s.next ≤ r ∧
    IsCopy c.target.pointerBytes n o o' r copying ∧
    ∀ {M : Interpretation} {g : Machine.Function}, M.pointerBits = c.target.pointerBits →
      s.Framed g → ∀ (σ : Machine.State M) a b,
        dest.address? c { s' with aggregates := s.aggregates } σ = some a →
        source.address? c { s' with aggregates := s.aggregates } σ = some b →
        Memory.Apart n a b →
        ∃ σ₁ σ', g.runCode before σ = some (none, σ₁) ∧ o.place? σ₁ = some a ∧
          o'.place? σ₁ = some b ∧ copying.foldlM State.access σ₁ = some σ' ∧
          (∀ i < n, σ'.memory (a + BitVec.ofNat _ i) = σ.memory (b + BitVec.ofNat _ i)) ∧
          (∀ x, ¬Memory.Within a n x → σ'.memory x = σ.memory x) ∧
          ∀ x < s.next, σ'.regs x = σ.regs x

theorem copiesBytes_of_places {before : List Instruction} {o o' : Operand} {dst src : CopyEnd}
    (hregister : c.target.pointerBytes = 4 ∨ c.target.pointerBytes = 8)
    (hcode : s₂.code.toList = s.code.toList ++ before) (hle : s.Continues s₂)
    (ho : o.IsPlainPlace c.target s₂.next) (ho' : o'.IsPlainPlace c.target s₂.next)
    (hcopy : (c.emitCopy o o' n).run s₂ = .ok ((), s₁))
    (hplaces : ∀ {M : Interpretation} {g : Machine.Function},
      M.pointerBits = c.target.pointerBits → s.Framed g → ∀ (σ : Machine.State M) a b,
      dst.address? c { s' with aggregates := s.aggregates } σ = some a →
      src.address? c { s' with aggregates := s.aggregates } σ = some b →
      ∃ σ₁, g.runCode before σ = some (none, σ₁) ∧ Spares s s₂ σ σ₁ ∧ o.place? σ₁ = some a ∧
        o'.place? σ₁ = some b) :
    ∃ code, s₁.code.toList = s.code.toList ++ code ∧ CopiesBytes c s s' dst src n code := by
  obtain ⟨-, copying, hcopying, hcopies⟩ :=
    isCopy_of_emitCopy hregister ho.plain.id_lt ho'.plain.id_lt hcopy
  refine ⟨before ++ copying, by rw [hcopying, hcode, List.append_assoc], before, copying, o, o',
    s₂.next, rfl, hle.next, hcopies, fun {M g} hM hg σ a b ha hb hapart => ?_⟩
  obtain ⟨σ₁, hrun, hspares, hdest, hsource⟩ := hplaces hM hg σ a b ha hb
  obtain ⟨σ', hfold, hcopied, hothers, hregs, -⟩ := hcopies.exact σ₁ a b hdest hsource hapart
  have hmemory : σ₁.memory = σ.memory := Agree.memory hspares
  refine ⟨σ₁, σ', hrun, hdest, hsource, hfold, fun i hi => ?_, fun x hx => ?_, fun x hx => ?_⟩
  · rw [hcopied i hi, hmemory]
  · rw [hothers x hx, hmemory]
  · rw [hregs x (Nat.lt_of_lt_of_le hx hle.next)]
    exact Agree.regs hspares x fun hscratch => absurd hx (Nat.not_lt.mpr hscratch.new)

theorem copiesBytes_of_locations {dst src : Ir.Value} {ty ty' : LowType} {o o' : Operand}
    (hregister : c.target.pointerBytes = 4 ∨ c.target.pointerBytes = 8)
    (hs : Tracked c.target s) (hdest : (c.location dst ty).run s = .ok (o, s₁))
    (hsource : (c.location src ty').run s₁ = .ok (o', s₂))
    (hcopy : (c.emitCopy o o' n).run s₂ = .ok ((), s')) :
    ∃ code, s'.code.toList = s.code.toList ++ code ∧
      CopiesBytes c s s' (.pointer dst) (.pointer src) n code := by
  obtain ⟨hle, hs₁, ho, code, hcode, hrun⟩ := exists_location hs hdest
  obtain ⟨hle₁, hs₂, ho', code', hcode', hrun'⟩ := exists_location hs₁ hsource
  obtain ⟨hle₂, -⟩ := isCopy_of_emitCopy hregister (ho.mono hle₁.next).plain.id_lt ho'.plain.id_lt
    hcopy
  have hboth : s₂.code.toList = s.code.toList ++ (code ++ code') := by
    rw [hcode', hcode, List.append_assoc]
  refine copiesBytes_of_places hregister hboth (hle.trans hle₁) (ho.mono hle₁.next) ho' hcopy
    fun {M g} hM hg σ a b ha hb => ?_
  have hknown : s₂.Continues { s' with aggregates := s.aggregates } :=
    ⟨hle₂.next, hle₂.temps, hle₂.fresh, hle₂.same.params, hle₂.same.objects,
      (hle.trans hle₁).same.aggregates.symm⟩
  obtain ⟨σ₁, hfirst, hspares, hplace⟩ := hrun hM hg σ
  rw [CopyEnd.address?, ← hspares.points? hs hle (hle₁.trans hknown)] at hb
  obtain ⟨σ₂, hsecond, hspares', hplace'⟩ := hrun' hM (hle.framed hg) σ₁
  exact ⟨σ₂, (runCode_append_eq hfirst).trans hsecond, hspares.trans hspares' hle hle₁,
    (hspares'.place? ho).trans (hplace _ a (hle₁.trans hknown) ha), hplace' _ b hknown hb⟩

theorem copiesBytes_load {result : Ir.TempId} {ptr : Ir.Value} {ty : Ir.Ty}
    (hregister : c.target.pointerBytes = 4 ∨ c.target.pointerBytes = 8) (hs : Tracked c.target s)
    (haggregate : ty.isAggregate) (hsize : ty.size c.target.pointerBytes = .ok n)
    (hlarge : c.target.convention.maxAggregateBits < n * 8)
    (h : (c.lowerLoad result ptr ty).run s = .ok ((), s')) :
    ∃ slot code, s'.homeSlot? (.temp result) = some slot ∧
      s'.code.toList = s.code.toList ++ code ∧
      CopiesBytes c s s' (.object slot) (.pointer ptr) n code := by
  rw [Scope.lowerLoad, if_pos haggregate] at h
  obtain ⟨location, s₁, hlocation, h⟩ := run_bind_eq_ok.mp h
  obtain ⟨hle, hs₁, hplace, code, hcode, hrun⟩ := exists_location hs hlocation
  obtain ⟨fits, s₂, hfits, h⟩ := run_bind_eq_ok.mp h
  obtain ⟨bytes, hbytes, -, rfl, rfl⟩ := run_fitsRegisters_eq_ok.mp hfits
  cases hsize.symm.trans hbytes
  rw [decide_eq_false (Nat.not_le.mpr hlarge), if_neg Bool.false_ne_true] at h
  obtain ⟨bytes, s₃, hsized, h⟩ := run_bind_eq_ok.mp h
  obtain ⟨hbytes', rfl⟩ := run_size_eq_ok.mp hsized
  cases hsize.symm.trans hbytes'
  obtain ⟨slot, s₄, hslot, h⟩ := run_bind_eq_ok.mp h
  have hle₄ : s₃.Continues s₄ := by
    obtain ⟨-, -, rfl⟩ := run_freshSlot_eq_ok.mp hslot
    exact ⟨Nat.le_succ _, fun _ _ h => h, fun _ _ h => .inl h, rfl, rfl, rfl⟩
  have hcode₄ : s₄.code = s₃.code := by
    obtain ⟨-, -, rfl⟩ := run_freshSlot_eq_ok.mp hslot
    rfl
  obtain ⟨_, s₅, hcopy, h⟩ := run_bind_eq_ok.mp h
  have hobject : (Operand.stack slot 0 c.target.pointerType).IsPlainPlace c.target s₄.next :=
    Operand.isPlainPlace_stack _ _ _
  obtain ⟨hle₅, -⟩ := isCopy_of_emitCopy hregister hobject.plain.id_lt
    (hplace.mono hle₄.next).plain.id_lt hcopy
  cases h
  have hcopied : ∃ code, s₅.code.toList = s.code.toList ++ code ∧
      CopiesBytes c s { s₅ with aggregates := (.temp result, .slot slot) :: s₅.aggregates }
        (.object slot) (.pointer ptr) n code := by
    refine copiesBytes_of_places hregister (hcode₄ ▸ hcode) (hle.trans hle₄) hobject
      (hplace.mono hle₄.next) hcopy fun {M g} hM hg σ a b ha hb => ?_
    have hafter := hle₄.trans hle₅
    have hknown : s₃.Continues { s₅ with aggregates := s.aggregates } :=
      ⟨hafter.next, hafter.temps, hafter.fresh, hafter.same.params, hafter.same.objects,
        hle.same.aggregates.symm⟩
    obtain ⟨σ₁, hfetched, hspares, hpointed⟩ := hrun hM hg σ
    exact ⟨σ₁, hfetched, hspares.mono hle₄, ha, hpointed _ b hknown hb⟩
  obtain ⟨copied, hcopied, hcopies⟩ := hcopied
  refine ⟨slot, copied, ?_, hcopied, hcopies⟩
  rw [State.homeSlot?, List.lookup_cons_self]

/-- An instruction that copies memory copies all of it: an explicit copy, a store of an aggregate
that is in memory, or a load of one that is too large for registers, which goes to a frame object of
its own. -/
def Copies (c : Scope) (s s' : State) (code : List Instruction) : Ir.Instruction → Prop
  | .memCopy dest source bytes =>
    CopiesBytes c s s' (.pointer dest) (.pointer source) bytes.toNat code
  | .store value ptr => value.ty.isAggregate → s.homeRegisters? value = none →
    ∃ n, value.ty.size c.target.pointerBytes = .ok n ∧
      CopiesBytes c s s' (.pointer ptr) (.pointer value) n code
  | .load result ptr ty => ty.isAggregate → ∀ n, ty.size c.target.pointerBytes = .ok n →
    c.target.convention.maxAggregateBits < n * 8 →
    ∃ slot, s'.homeSlot? (.temp result) = some slot ∧
      CopiesBytes c s s' (.object slot) (.pointer ptr) n code
  | _ => True

theorem copies_of_run {next : Option String} {i : Ir.Instruction}
    (hregister : c.target.pointerBytes = 4 ∨ c.target.pointerBytes = 8) (hs : Tracked c.target s)
    (h : (c.lowerInstruction next i).run s = .ok ((), s'))
    (hcode : s'.code.toList = s.code.toList ++ code) : Copies c s s' code i := by
  have hsame : ∀ {code' : List Instruction}, s'.code.toList = s.code.toList ++ code' →
      code' = code := fun h => List.append_cancel_left (h.symm.trans hcode)
  cases i with
  | memCopy dest source bytes =>
    obtain ⟨o, s₁, hdest, h⟩ := run_bind_eq_ok.mp h
    obtain ⟨o', s₂, hsource, h⟩ := run_bind_eq_ok.mp h
    obtain ⟨code', hcode', hcopies⟩ := copiesBytes_of_locations hregister hs hdest hsource h
    exact hsame hcode' ▸ hcopies
  | store value ptr =>
    intro haggregate hmemory
    rw [Scope.lowerInstruction, Scope.lowerStore, if_pos haggregate] at h
    obtain ⟨o, s₁, hdest, h⟩ := run_bind_eq_ok.mp h
    rw [run_get_bind, (exists_location hs hdest).1.same.homeRegisters?, hmemory] at h
    obtain ⟨o', s₂, hsource, h⟩ := run_bind_eq_ok.mp h
    obtain ⟨n, s₃, hsized, hcopy⟩ := run_bind_eq_ok.mp h
    obtain ⟨hsize, rfl⟩ := run_size_eq_ok.mp hsized
    obtain ⟨code', hcode', hcopies⟩ := copiesBytes_of_locations hregister hs hdest hsource hcopy
    exact ⟨n, hsize, hsame hcode' ▸ hcopies⟩
  | load result ptr ty =>
    intro haggregate n hsize hlarge
    obtain ⟨slot, code', hslot, hcode', hcopies⟩ :=
      copiesBytes_load hregister hs haggregate hsize hlarge h
    exact ⟨slot, hslot, hsame hcode' ▸ hcopies⟩
  | _ => trivial

/-- **Copies are exact.**  The code for a copy between two places, at any offset from a frame object
or from a register that is in use, splits the bytes into pieces that fit registers and copies
exactly them, and so does the code of every instruction of a function that copies memory. -/
theorem copies_exact (t : Target) (hregister : t.pointerBytes = 4 ∨ t.pointerBytes = 8) :
    (∀ (c : Scope) (s s' : State) (dest source : Operand) (n : Nat), c.target = t →
      (∀ x, dest.unallocated? = some x → x < s.next) →
      (∀ x, source.unallocated? = some x → x < s.next) →
      (c.emitCopy dest source n).run s = .ok ((), s') →
      ∃ code, s'.code.toList = s.code.toList ++ code ∧
        IsCopy t.pointerBytes n dest source s.next code) ∧
    ∀ (f : Ir.Function) (g : Machine.Function) (k : Nat) (b : Ir.Block)
      (before todo : List Ir.Instruction) (i : Ir.Instruction), lowerFunction t f = .ok g →
      f.blocks[k]? = some b → b.instructions = before ++ i :: todo →
      ∃ s s' code, Reaches ⟨t, f.name⟩ f (i :: todo) b (f.blocks.drop (k + 1)) s ∧
        Lowers ⟨t, f.name⟩ g k i s s' code ∧ Copies ⟨t, f.name⟩ s s' code i := by
  refine ⟨fun c s s' dest source n hc hdest hsource h => ?_,
    fun f g k b before todo i h hb hi => ?_⟩
  · subst hc
    exact (isCopy_of_emitCopy hregister hdest hsource h).2
  · obtain ⟨s, s', code, hreaches, hlowers⟩ := exists_lowered_instruction h hb hi
    obtain ⟨next, hrun⟩ := hlowers.run
    exact ⟨s, s', code, hreaches, hlowers,
      copies_of_run hregister hlowers.tracked hrun hlowers.code_eq⟩

example : pieces 4 7 = [⟨0, .integer 32⟩, ⟨4, .integer 16⟩, ⟨6, .integer 8⟩] := by
  decide +kernel

/-- Seven bytes from behind a pointer go to a local. -/
def fetching : Ir.Instruction := .memCopy (.temp 0 (.ptr (.array 7 .i8))) (.param "p" (.ptr .i8)) 7

def fetcherEntry : Ir.Block where
  name := "entry"
  instructions := [.stackAlloc 0 "local" (.array 7 .i8), fetching, .ret none]

def fetcher : Ir.Function where
  name := "f"
  returnType := .void
  parameters := [⟨"p", .ptr .i8, false⟩]
  blocks := [fetcherEntry]

/-- A place in a frame object, one behind a pointer, and a state where both are known. -/
def shelf : Operand := .stack ⟨1⟩ 8 (.pointer 32)

def behind : Operand := .memory 0 (-3) (.pointer 32)

def shelving : State := { function := { name := "f", nextId := 2 } }

theorem fetcher_copies :
    (∃ s', (Scope.emitCopy ⟨.riscv32, "f"⟩ shelf behind 7).run shelving = .ok ((), s') ∧
      ∃ code, s'.code.toList = [] ++ code ∧
        IsCopy Target.riscv32.pointerBytes 7 shelf behind 2 code) ∧
    ∃ g, lowerFunction .riscv32 fetcher = .ok g ∧
      ∃ s s' code, Reaches ⟨.riscv32, "f"⟩ fetcher [fetching, .ret none] fetcherEntry [] s ∧
        Lowers ⟨.riscv32, "f"⟩ g 0 fetching s s' code ∧
        Copies ⟨.riscv32, "f"⟩ s s' code fetching := by
  obtain ⟨hplaces, hinstructions⟩ := copies_exact .riscv32 (.inl rfl)
  constructor
  · have hok : ((Scope.emitCopy ⟨.riscv32, "f"⟩ shelf behind 7).run shelving).toBool := by
      decide +kernel
    have hbehind : ∀ x, behind.unallocated? = some x → x < shelving.next := by
      intro x hx
      cases hx
      decide
    cases hrun : (Scope.emitCopy ⟨.riscv32, "f"⟩ shelf behind 7).run shelving with
    | error e =>
      rw [hrun] at hok
      cases hok
    | ok r => exact ⟨r.2, rfl, hplaces _ shelving r.2 shelf behind 7 rfl nofun hbehind hrun⟩
  · have hok : (lowerFunction .riscv32 fetcher).toBool := by decide +kernel
    cases hg : lowerFunction .riscv32 fetcher with
    | error e =>
      rw [hg] at hok
      cases hok
    | ok g => exact ⟨g, rfl, hinstructions fetcher g 0 fetcherEntry [.stackAlloc 0 "local" _] _ _
        hg rfl rfl⟩

end Retarget.Lowering
