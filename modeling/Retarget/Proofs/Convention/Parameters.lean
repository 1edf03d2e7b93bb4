import Retarget.Proofs.Bindings
import Retarget.Proofs.Lowering.Steps

/-!
# Registers of parameters

What registers a list of parameters wants (`wantsOf?`), and which registers it gets (`roots?`).  A
function turns its parameters into machine parameters when it is lowered and binds registers to them
when it is allocated; it ends up with the registers that its parameters get, and gives up if and
only if there are none (`roots?_of_parameterBindings`, `exists_parameterBindings`).
-/

namespace Retarget.Lowering

open Machine

/-! ## What parameters want and get -/

/-- What one register is wanted for. -/
structure Want where
  ty : LowType
  isFloat : Bool := false
  isReturnBuffer : Bool := false
deriving DecidableEq

/-- What a parameter wants; an aggregate that is too large or has no size wants what it cannot
get. -/
def wants? (t : Target) (p : Ir.Parameter) : Option (List Want) :=
  if p.isReturnBuffer then some [⟨t.pointerType, false, true⟩]
  else if p.ty.isAggregate then
    match p.ty.size t.pointerBytes with
    | .ok bytes =>
      if bytes * 8 ≤ t.convention.maxAggregateBits then
        some ((pieces t.pointerBytes bytes).map fun q => { ty := q.ty })
      else none
    | .error _ => none
  else some [⟨lowType t.pointerBits p.ty, p.ty.isFloat, false⟩]

def wantsOf? (t : Target) : List Ir.Parameter → Option (List Want)
  | [] => some []
  | p :: ps => do
    let ws ← wants? t p
    let rest ← wantsOf? t ps
    return ws ++ rest

/-- The full-width registers for what is wanted, from the `next`-th argument register and the
`nextFloat`-th floating-point one on. -/
def roots? (t : Target) (next nextFloat : Nat) : List Want → Option (List RegId)
  | [] => some []
  | w :: ws =>
    if w.isReturnBuffer then do
      let rest ← roots? t next nextFloat ws
      return t.registers.root t.registers.returnBuffer :: rest
    else if w.isFloat then do
      let reg ← t.convention.floatArguments[nextFloat]?
      let rest ← roots? t next (nextFloat + 1) ws
      return t.registers.root reg :: rest
    else do
      let reg ← t.convention.arguments[next]?
      let rest ← roots? t (next + 1) nextFloat ws
      return t.registers.root reg :: rest

variable {t : Target} {c : Scope} {s s' : State}

theorem roots?_pieces (ps : List Piece) (ws : List Want) (next nextFloat : Nat) :
    roots? t next nextFloat ((ps.map fun q => { ty := q.ty }) ++ ws) =
      if ps.length ≤ (t.convention.arguments.drop next).length then
        (roots? t (next + ps.length) nextFloat ws).map fun rest =>
          ((t.convention.arguments.drop next).take ps.length).map t.registers.root ++ rest
      else none := by
  induction ps generalizing next with
  | nil => simp
  | cons p ps ih =>
    rw [List.map_cons, List.cons_append, roots?]
    simp only [Bool.false_eq_true, if_false, ih]
    cases hreg : t.convention.arguments[next]? with
    | none =>
      have hle := List.getElem?_eq_none_iff.mp hreg
      have hlt : ¬(p :: ps).length ≤ (t.convention.arguments.drop next).length := by
        simp only [List.length_cons, List.length_drop]
        omega
      exact (if_neg hlt).symm
    | some reg =>
      rw [Function.drop_of_getElem? hreg]
      simp only [List.length_cons, List.length_drop, Nat.add_le_add_iff_right,
        Option.bind_eq_bind, Option.bind_some]
      split
      · rw [Nat.add_right_comm, Nat.add_assoc]
        cases roots? t (next + (ps.length + 1)) nextFloat ws with
        | none => rfl
        | some rest => simp
      · rfl

theorem countP_le_of_roots? {next nextFloat : Nat} {ws : List Want} {rs : List RegId}
    (h : roots? t next nextFloat ws = some rs) :
    ws.countP (!·.isReturnBuffer) ≤
      (t.convention.arguments.length - next) + (t.convention.floatArguments.length - nextFloat) := by
  induction ws generalizing next nextFloat rs with
  | nil => simp
  | cons w ws ih =>
    rw [roots?] at h
    split at h
    · next hbuffer =>
      obtain ⟨rest, hrest, -⟩ := Option.bind_eq_some_iff.mp h
      rw [List.countP_cons_of_neg (by simp [hbuffer])]
      exact ih hrest
    · next hbuffer =>
      rw [List.countP_cons_of_pos (by simpa using hbuffer)]
      split at h
      · obtain ⟨reg, hreg, h⟩ := Option.bind_eq_some_iff.mp h
        obtain ⟨rest, hrest, -⟩ := Option.bind_eq_some_iff.mp h
        obtain ⟨hlt, -⟩ := List.getElem?_eq_some_iff.mp hreg
        have hle := ih hrest
        omega
      · obtain ⟨reg, hreg, h⟩ := Option.bind_eq_some_iff.mp h
        obtain ⟨rest, hrest, -⟩ := Option.bind_eq_some_iff.mp h
        obtain ⟨hlt, -⟩ := List.getElem?_eq_some_iff.mp hreg
        have hle := ih hrest
        omega

theorem countP_wants?_le {p : Ir.Parameter} {ws : List Want} (h : wants? t p = some ws) :
    ws.countP (·.isReturnBuffer) ≤ 1 := by
  rw [wants?] at h
  split at h
  · cases h
    exact List.countP_le_length
  · split at h
    · split at h
      · split at h
        · cases h
          rw [List.countP_map, List.countP_eq_zero.mpr (by simp)]
          omega
        · cases h
      · cases h
    · cases h
      exact List.countP_le_length

theorem countP_wantsOf?_le {ps : List Ir.Parameter} {ws : List Want}
    (h : wantsOf? t ps = some ws) : ws.countP (·.isReturnBuffer) ≤ ps.length := by
  induction ps generalizing ws with
  | nil =>
    cases h
    exact Nat.le_refl _
  | cons p ps ih =>
    rw [wantsOf?] at h
    obtain ⟨first, hfirst, h⟩ := Option.bind_eq_some_iff.mp h
    obtain ⟨rest, hrest, h⟩ := Option.bind_eq_some_iff.mp h
    cases h
    have hone := countP_wants?_le hfirst
    have hothers := ih hrest
    rw [List.countP_append, List.length_cons]
    omega

theorem length_wants_le (a : Arch) {ps : List Ir.Parameter} {ws : List Want} {rs : List RegId}
    (hws : wantsOf? a.target ps = some ws) (hrs : roots? a.target 0 0 ws = some rs) :
    ws.length ≤ ps.length + 16 := by
  have hbuffers := countP_wantsOf?_le hws
  have hothers := countP_le_of_roots? hrs
  have htotal := List.length_eq_countP_add_countP (·.isReturnBuffer) (l := ws)
  have hregisters : a.target.convention.arguments.length +
      a.target.convention.floatArguments.length ≤ 16 := by
    cases a <;> decide
  simp only [Bool.decide_eq_false, Bool.not_eq_true] at htotal hothers
  omega

/-! ## The callee -/

/-- What a machine parameter wants. -/
def Want.of (p : Parameter) : Want := ⟨p.ty, p.isFloat, p.isReturnBuffer⟩

/-- One step of both walks: a parameter takes its register, and the rest the registers behind. -/
theorem bind_step (t : Target) (name : String) (p : Parameter) (ps : List Parameter)
    (next nextFloat : Nat) :
    ∃ (reg? : Option RegId) (next' nextFloat' : Nat),
      (∀ bound, Function.bindParameters t name next nextFloat (p :: ps) = .ok bound ↔
        ∃ reg rest, reg? = some reg ∧ Function.bindParameters t name next' nextFloat' ps = .ok rest ∧
          Function.bindBefore p.id (t.registers.root reg) rest = bound) ∧
      ∀ rs, roots? t next nextFloat ((p :: ps).map Want.of) = some rs ↔
        ∃ reg rest, reg? = some reg ∧ roots? t next' nextFloat' (ps.map Want.of) = some rest ∧
          t.registers.root reg :: rest = rs := by
  obtain ⟨id, ty, isFloat, isReturnBuffer⟩ := p
  have hbind : ∀ (reg? : Option RegId) (next' nextFloat' : Nat) (failure : Failure) bound,
      (do
        let reg ← orFail failure reg?
        let rest ← Function.bindParameters t name next' nextFloat' ps
        return Function.bindBefore id (t.registers.root reg) rest) = .ok bound ↔
        ∃ reg rest, reg? = some reg ∧
          Function.bindParameters t name next' nextFloat' ps = .ok rest ∧
          Function.bindBefore id (t.registers.root reg) rest = bound := by
    intro reg? next' nextFloat' failure bound
    simp only [bind_eq_ok, orFail_eq_ok, pure_eq_ok, exists_and_left]
  have hroots : ∀ (reg? : Option RegId) (next' nextFloat' : Nat) rs,
      (do
        let reg ← reg?
        let rest ← roots? t next' nextFloat' (ps.map Want.of)
        return t.registers.root reg :: rest) = some rs ↔
        ∃ reg rest, reg? = some reg ∧ roots? t next' nextFloat' (ps.map Want.of) = some rest ∧
          t.registers.root reg :: rest = rs := by
    intro reg? next' nextFloat' rs
    simp only [Option.bind_eq_bind, Option.bind_eq_some_iff, Option.pure_def, Option.some.injEq,
      exists_and_left]
  cases isReturnBuffer with
  | true =>
    refine ⟨some t.registers.returnBuffer, next, nextFloat, fun bound => ?_, fun rs => ?_⟩
    · exact hbind (some _) next nextFloat .outOfRange bound
    · exact hroots (some _) next nextFloat rs
  | false =>
    cases isFloat with
    | true => exact ⟨_, _, _, hbind _ _ _ _, hroots _ _ _⟩
    | false => exact ⟨_, _, _, hbind _ _ _ _, hroots _ _ _⟩

theorem exists_roots?_of_bindParameters {name : String} {ps : List Parameter}
    (hnodup : (ps.map (·.id)).Nodup) {next nextFloat : Nat} {bound : List (RegId × RegId)}
    (h : Function.bindParameters t name next nextFloat ps = .ok bound) :
    ∃ rs, roots? t next nextFloat (ps.map Want.of) = some rs ∧
      ps.map (fun p => bound.lookup p.id) = rs.map some := by
  induction ps generalizing next nextFloat bound with
  | nil => exact ⟨[], rfl, rfl⟩
  | cons p ps ih =>
    obtain ⟨reg?, next', nextFloat', hbind, hroots⟩ := bind_step t name p ps next nextFloat
    obtain ⟨reg, rest, hreg, hrest, rfl⟩ := (hbind bound).mp h
    obtain ⟨hnew, hnodup⟩ := List.nodup_cons.mp hnodup
    obtain ⟨rs, hrs, hlookups⟩ := ih hnodup hrest
    refine ⟨_, (hroots _).mpr ⟨reg, rs, hreg, hrs, rfl⟩, ?_⟩
    have hfree : rest.lookup p.id = none := by
      cases hlookup : rest.lookup p.id with
      | none => rfl
      | some home =>
        obtain ⟨q, hq, hid, -⟩ := Function.mem_bindParameters hrest (mem_of_lookup_eq_some hlookup)
        exact absurd (List.mem_map.mpr ⟨q, hq, hid⟩) hnew
    rw [Function.bindBefore, hfree, List.map_cons, List.map_cons, ← hlookups]
    refine congrArg₂ _ (by simp) (List.map_congr_left fun q hq => ?_)
    have hne : q.id ≠ p.id := fun heq => hnew (List.mem_map.mpr ⟨q, hq, heq⟩)
    simp [List.lookup_cons, beq_false_of_ne hne]

theorem exists_bindParameters_of_roots? (name : String) {ps : List Parameter} {next nextFloat : Nat}
    {rs : List RegId} (h : roots? t next nextFloat (ps.map Want.of) = some rs) :
    ∃ bound, Function.bindParameters t name next nextFloat ps = .ok bound := by
  induction ps generalizing next nextFloat rs with
  | nil => exact ⟨[], rfl⟩
  | cons p ps ih =>
    obtain ⟨reg?, next', nextFloat', hbind, hroots⟩ := bind_step t name p ps next nextFloat
    obtain ⟨reg, rest, hreg, hrest, rfl⟩ := (hroots rs).mp h
    obtain ⟨bound, hbound⟩ := ih hrest
    exact ⟨_, (hbind _).mpr ⟨reg, bound, hreg, hbound, rfl⟩⟩

/-- From `s` to `s'` the function gets new parameters for what is wanted. -/
structure Adds (s s' : State) (ws : List Want) (new : List Parameter) : Prop where
  params : s'.function.params = s.function.params ++ new
  wants : new.map Want.of = ws
  fresh : ∀ p ∈ new, s.function.nextId ≤ p.id ∧ p.id < s'.function.nextId
  nodup : (new.map (·.id)).Nodup
  le : s.function.nextId ≤ s'.function.nextId

theorem Adds.refl (s : State) : Adds s s [] [] := by
  constructor <;> simp

theorem Adds.trans {s₁ s₂ s₃ : State} {ws ws' : List Want} {new new' : List Parameter}
    (h : Adds s₁ s₂ ws new) (h' : Adds s₂ s₃ ws' new') : Adds s₁ s₃ (ws ++ ws') (new ++ new') where
  params := by rw [h'.params, h.params, List.append_assoc]
  wants := by rw [List.map_append, h.wants, h'.wants]
  fresh := by
    intro p hp
    rcases List.mem_append.mp hp with hp | hp
    · exact (h.fresh p hp).imp_right fun hlt => Nat.lt_of_lt_of_le hlt h'.le
    · exact (h'.fresh p hp).imp_left fun hle => Nat.le_trans h.le hle
  nodup := by
    rw [List.map_append, List.nodup_append]
    refine ⟨h.nodup, h'.nodup, fun id hid id' hid' => ?_⟩
    obtain ⟨p, hp, rfl⟩ := List.mem_map.mp hid
    obtain ⟨p', hp', rfl⟩ := List.mem_map.mp hid'
    exact Nat.ne_of_lt (Nat.lt_of_lt_of_le (h.fresh p hp).2 (h'.fresh p' hp').1)
  le := Nat.le_trans h.le h'.le

/-- Where a step only adds parameters for what is wanted, and a state with enough ids lets it. -/
structure Provides (x : Lower Unit) (ws : List Want) (cost : Nat) : Prop where
  adds : ∀ s s', x.run s = .ok ((), s') → ∃ new, Adds s s' ws new
  succeeds : ∀ s, s.function.nextId + cost < Word.modulus 32 →
    ∃ s', x.run s = .ok ((), s') ∧ s'.function.nextId ≤ s.function.nextId + cost

theorem Provides.bind {x : Lower Unit} {g : Unit → Lower Unit} {ws ws' : List Want}
    {cost cost' : Nat} (hx : Provides x ws cost) (hg : Provides (g ()) ws' cost') :
    Provides (x >>= g) (ws ++ ws') (cost + cost') := by
  constructor
  · intro s s' h
    obtain ⟨_, s₁, hrun, h⟩ := run_bind_eq_ok.mp h
    obtain ⟨new, hnew⟩ := hx.adds s s₁ hrun
    obtain ⟨new', hnew'⟩ := hg.adds s₁ s' h
    exact ⟨_, hnew.trans hnew'⟩
  · intro s hids
    obtain ⟨s₁, hrun, hle⟩ := hx.succeeds s (by omega)
    obtain ⟨s', hrun', hle'⟩ := hg.succeeds s₁ (by omega)
    exact ⟨s', run_bind_eq_ok.mpr ⟨(), s₁, hrun, hrun'⟩, by omega⟩

theorem provides_freshParameter (w : Want) {g : RegId → Lower Unit}
    (hg : ∀ id s, ∃ s', (g id).run s = .ok ((), s') ∧ s'.function = s.function) :
    Provides (freshParameter w.ty w.isFloat w.isReturnBuffer >>= g) [w] 1 := by
  constructor
  · intro s s' h
    obtain ⟨id, s₁, hrun, h⟩ := run_bind_eq_ok.mp h
    obtain ⟨-, rfl, rfl⟩ := run_freshParameter_eq_ok.mp hrun
    obtain ⟨s₂, hrun, hfunction⟩ := hg s.function.nextId { s with function := _ }
    cases hrun.symm.trans h
    refine ⟨[⟨s.function.nextId, w.ty, w.isFloat, w.isReturnBuffer⟩], ?_⟩
    constructor <;> simp [hfunction, Want.of]
  · intro s hids
    obtain ⟨s', hrun, hfunction⟩ := hg s.function.nextId _
    refine ⟨s', run_bind_eq_ok.mpr ⟨_, _, run_freshParameter_eq_ok.mpr ⟨hids, rfl, rfl⟩, hrun⟩, ?_⟩
    exact hfunction ▸ Nat.le_refl _

theorem provides_pieces (base : Operand) (ps : List Piece) :
    Provides (ps.forM fun piece => do
        let id ← freshParameter piece.ty false false
        emit .store [piece.of base, .parameter id piece.ty])
      (ps.map fun q => { ty := q.ty }) ps.length := by
  induction ps with
  | nil =>
    refine ⟨fun s s' h => ?_, fun s _ => ⟨s, rfl, Nat.le_refl _⟩⟩
    cases h
    exact ⟨[], .refl s⟩
  | cons p ps ih =>
    rw [List.forM, List.map_cons, List.length_cons, Nat.add_comm]
    refine Provides.bind (?_ : Provides _ [{ ty := p.ty }] 1) ih
    exact provides_freshParameter { ty := p.ty } fun id s => ⟨_, run_emit _ _, rfl⟩

theorem Provides.mono {x : Lower Unit} {ws : List Want} {cost cost' : Nat}
    (h : Provides x ws cost) (hle : cost ≤ cost') : Provides x ws cost' := by
  refine ⟨h.adds, fun s hids => ?_⟩
  obtain ⟨s', hrun, hle'⟩ := h.succeeds s (by omega)
  exact ⟨s', hrun, by omega⟩

theorem Provides.congr {x y : Lower Unit} {ws : List Want} {cost : Nat} (h : Provides x ws cost)
    (hrun : ∀ s, y.run s = x.run s) : Provides y ws cost := by
  refine ⟨fun s s' hy => h.adds s s' (hrun s ▸ hy), fun s hids => ?_⟩
  rw [hrun]
  exact h.succeeds s hids

theorem provides_freshSlot (bytes : Nat) {g : Slot → Lower Unit} {ws : List Want} {cost : Nat}
    (hg : ∀ slot, Provides (g slot) ws cost) :
    Provides (freshSlot bytes >>= g) ws (1 + cost) := by
  constructor
  · intro s s' h
    obtain ⟨slot, s₁, hrun, h⟩ := run_bind_eq_ok.mp h
    obtain ⟨-, rfl, rfl⟩ := run_freshSlot_eq_ok.mp hrun
    obtain ⟨new, hnew⟩ := (hg _).adds _ s' h
    exact ⟨new, hnew.params, hnew.wants, fun p hp => (hnew.fresh p hp).imp_left Nat.le_of_succ_le,
      hnew.nodup, Nat.le_of_succ_le hnew.le⟩
  · intro s hids
    have hlt : s.function.nextId + 1 < Word.modulus 32 := by omega
    have hnext : s.function.nextId + 1 + cost = s.function.nextId + (1 + cost) := by omega
    obtain ⟨s', hrun, hle⟩ := (hg ⟨s.function.nextId⟩).succeeds { s with
      function := { s.function with
        nextId := s.function.nextId + 1
        frame := s.function.frame.insert ⟨s.function.nextId⟩ (bytes % Word.modulus 32) } }
      (hnext ▸ hids)
    exact ⟨s', run_bind_eq_ok.mpr ⟨_, _, run_freshSlot_eq_ok.mpr ⟨hlt, rfl, rfl⟩, hrun⟩,
      hnext ▸ hle⟩

theorem provides_modify {g : State → State} (hg : ∀ s, (g s).function = s.function) :
    Provides (modify g) [] 0 := by
  refine ⟨fun s s' h => ?_, fun s _ => ⟨g s, rfl, by simp [hg]⟩⟩
  cases h
  exact ⟨[], by constructor <;> simp [hg]⟩

/-- A parameter becomes the machine parameters that it wants. -/
theorem provides_lowerParameter (a : Arch) (hc : c.target = a.target) {p : Ir.Parameter}
    {ws : List Want} (h : wants? c.target p = some ws) :
    Provides (c.lowerParameter p) ws (1 + ws.length) := by
  rw [wants?] at h
  rw [Scope.lowerParameter]
  split at h
  · next hbuffer =>
    cases h
    rw [if_pos hbuffer]
    refine (provides_freshParameter ⟨c.target.pointerType, false, true⟩ fun id s => ?_).mono
      (by simp)
    exact ⟨_, rfl, rfl⟩
  · next hbuffer =>
    rw [if_neg hbuffer]
    split at h
    · next haggregate =>
      rw [if_pos haggregate]
      split at h
      · next bytes hsize =>
        split at h
        · next hfits =>
          cases h
          have hlt : bytes * 8 < Word.modulus 64 :=
            Nat.lt_of_le_of_lt hfits (hc ▸ a.maxAggregateBits_lt)
          have hbody : Provides (do
              let slot ← freshSlot bytes
              (pieces c.target.pointerBytes bytes).forM fun piece => do
                let id ← freshParameter piece.ty false false
                emit .store [piece.of (.stack slot 0 c.target.pointerType),
                  .parameter id piece.ty]
              setHome (.param p.name) (.slot slot))
              ((pieces c.target.pointerBytes bytes).map (fun q => { ty := q.ty }) ++ [])
              (1 + ((pieces c.target.pointerBytes bytes).length + 0)) :=
            provides_freshSlot bytes fun slot =>
              (provides_pieces _ _).bind (provides_modify fun _ => rfl)
          rw [List.append_nil] at hbody
          refine (hbody.mono (by simp)).congr fun s => ?_
          rw [StateT.run_bind, run_fitsRegisters_eq_ok.mpr ⟨bytes, hsize, hlt, rfl, rfl⟩, ok_bind,
            decide_eq_true hfits]
          show (c.size p.ty >>= _).run s = _
          rw [StateT.run_bind, run_size_eq_ok.mpr ⟨hsize, rfl⟩, ok_bind, StateT.run_bind,
            StateT.run_bind]
          refine bind_congr fun r => ?_
          show (c.piecesOf p.ty >>= _).run r.2 = _
          rw [StateT.run_bind, run_piecesOf_eq_ok.mpr ⟨bytes, hsize, rfl, rfl⟩, ok_bind]
        · cases h
      · cases h
    · next haggregate =>
      cases h
      rw [if_neg haggregate]
      refine (provides_freshParameter ⟨_, p.ty.isFloat, false⟩ fun id s => ?_).mono (by simp)
      exact ⟨_, rfl, rfl⟩

theorem wants?_of_lowerParameter {p : Ir.Parameter} (h : (c.lowerParameter p).run s = .ok ((), s')) :
    ∃ ws, wants? c.target p = some ws := by
  rw [wants?]
  split
  · exact ⟨_, rfl⟩
  · next hbuffer =>
    split
    · next haggregate =>
      obtain ⟨ty, isFloat, ⟨hbuffer', -⟩ | ⟨hscalar, -⟩, -⟩ |
          ⟨bytes, s₁, -, -, hsize, hle, -⟩ := run_lowerParameter_cases h
      · exact absurd hbuffer' hbuffer
      · rw [hscalar] at haggregate
        cases haggregate
      · simp [hsize, hle]
    · exact ⟨_, rfl⟩

theorem wantsOf?_cons {p : Ir.Parameter} {ps : List Ir.Parameter} {all : List Want} :
    wantsOf? t (p :: ps) = some all ↔ ∃ ws rest, wants? t p = some ws ∧
      wantsOf? t ps = some rest ∧ ws ++ rest = all := by
  simp only [wantsOf?, Option.bind_eq_bind, Option.bind_eq_some_iff, Option.pure_def,
    Option.some.injEq, exists_and_left]

theorem provides_parameters (a : Arch) (hc : c.target = a.target) {ps : List Ir.Parameter}
    {ws : List Want} (h : wantsOf? c.target ps = some ws) :
    Provides (ps.forM c.lowerParameter) ws (ps.length + ws.length) := by
  induction ps generalizing ws with
  | nil =>
    cases h
    refine ⟨fun s s' h => ?_, fun s _ => ⟨s, rfl, Nat.le_refl _⟩⟩
    cases h
    exact ⟨[], .refl s⟩
  | cons p ps ih =>
    obtain ⟨ws', rest, hws, hrest, rfl⟩ := wantsOf?_cons.mp h
    rw [List.forM]
    refine ((provides_lowerParameter a hc hws).bind (ih hrest)).mono ?_
    simp only [List.length_cons, List.length_append]
    omega

theorem wantsOf?_of_parameters {ps : List Ir.Parameter}
    (h : (ps.forM c.lowerParameter).run s = .ok ((), s')) : ∃ ws, wantsOf? c.target ps = some ws := by
  induction ps generalizing s with
  | nil => exact ⟨[], rfl⟩
  | cons p ps ih =>
    rw [List.forM] at h
    obtain ⟨_, s₁, hrun, h⟩ := run_bind_eq_ok.mp h
    obtain ⟨ws, hws⟩ := wants?_of_lowerParameter hrun
    obtain ⟨rest, hrest⟩ := ih h
    exact ⟨_, wantsOf?_cons.mpr ⟨ws, rest, hws, hrest, rfl⟩⟩

def parameterBindings (t : Target) (g : Ir.Function) :
    Result (List Parameter × List (RegId × RegId)) := do
  let ((), s) ← (g.parameters.forM (Scope.lowerParameter ⟨t, g.name⟩)).run (.start g)
  let bound ← Function.bindParameters t s.function.name 0 0 s.function.params
  return (s.function.params, bound)

/-- Machine parameters are what the parameters want, bound to the registers that they get. -/
theorem roots?_of_parameterBindings (a : Arch) {g : Ir.Function} {ps : List Parameter}
    {bound : List (RegId × RegId)} (h : parameterBindings a.target g = .ok (ps, bound)) :
    wantsOf? a.target g.parameters = some (ps.map Want.of) ∧
      ∃ rs, roots? a.target 0 0 (ps.map Want.of) = some rs ∧
        ps.map (fun p => bound.lookup p.id) = rs.map some := by
  obtain ⟨⟨_, s⟩, hrun, h⟩ := bind_eq_ok.mp h
  obtain ⟨bound', hbound, h⟩ := bind_eq_ok.mp h
  cases h
  obtain ⟨ws, hws⟩ := wantsOf?_of_parameters hrun
  obtain ⟨new, hnew⟩ := (provides_parameters a rfl hws).adds _ _ hrun
  have hparams : s.function.params = new := hnew.params
  refine ⟨by rw [hparams, hnew.wants]; exact hws, ?_⟩
  exact exists_roots?_of_bindParameters (hparams ▸ hnew.nodup) hbound

theorem exists_parameterBindings (a : Arch) {g : Ir.Function} {ws : List Want} {rs : List RegId}
    (hws : wantsOf? a.target g.parameters = some ws) (hrs : roots? a.target 0 0 ws = some rs)
    (hids : g.parameters.length + ws.length < Word.modulus 32) :
    ∃ ps bound, parameterBindings a.target g = .ok (ps, bound) := by
  have hprovides := provides_parameters (c := ⟨a.target, g.name⟩) a rfl hws
  obtain ⟨s, hrun, -⟩ := hprovides.succeeds (.start g) (by simpa [State.start] using hids)
  obtain ⟨new, hnew⟩ := hprovides.adds _ _ hrun
  have hparams : s.function.params = new := hnew.params
  have hroots : roots? a.target 0 0 (s.function.params.map Want.of) = some rs := by
    rw [hparams, hnew.wants]
    exact hrs
  obtain ⟨bound, hbound⟩ := exists_bindParameters_of_roots? s.function.name hroots
  exact ⟨_, bound, bind_eq_ok.mpr ⟨_, hrun, bind_eq_ok.mpr ⟨bound, hbound, rfl⟩⟩⟩

theorem lowerBlocks_params {blocks : List Ir.Block}
    (h : (c.lowerBlocks blocks).run s = .ok ((), s')) :
    s'.function.name = s.function.name ∧ s'.function.params = s.function.params := by
  refine lowerBlocks_keeps (I := fun s' => s'.function.name = s.function.name ∧
    s'.function.params = s.function.params) ⟨rfl, rfl⟩ ?_ ?_ h
  · intro s₁ s₂ hs₁ hevolves
    obtain ⟨hname, hparams, -⟩ := function_of_evolves hevolves
    exact ⟨hname.trans hs₁.1, hparams.trans hs₁.2⟩
  · intro s₁ s₂ name hs₁ hclose
    cases hclose
    exact hs₁

theorem parameterBindings_eq {g : Ir.Function} {m : Machine.Function}
    (h : lowerFunction t g = .ok m) :
    parameterBindings t g = (Function.bindParameters t m.name 0 0 m.params).map (m.params, ·) := by
  obtain ⟨⟨_, s⟩, hrun, h⟩ := bind_eq_ok.mp h
  cases h
  obtain ⟨_, s₁, hparams, hblocks⟩ := run_bind_eq_ok.mp hrun
  obtain ⟨hname, hsame⟩ := lowerBlocks_params hblocks
  have hstart : (g.parameters.forM (Scope.lowerParameter ⟨t, g.name⟩)).run (.start g) =
      .ok ((), s₁) := hparams
  rw [parameterBindings, hstart, ok_bind, hname, hsame]
  dsimp only
  cases Function.bindParameters t s₁.function.name 0 0 s₁.function.params <;> rfl

/-! ## Where parameters live -/

/-- The state knows where a parameter lives. -/
def State.Knows (s : State) (name : String) : Prop :=
  (s.params.lookup name).isSome ∨ (s.homeSlot? (.param name)).isSome

theorem pieces_keep {ps : List Piece} {base : Operand}
    (h : (ps.forM fun piece => do
      let id ← freshParameter piece.ty false false
      emit .store [piece.of base, .parameter id piece.ty]).run s = .ok ((), s')) :
    s'.params = s.params ∧ s'.aggregates = s.aggregates := by
  induction ps generalizing s with
  | nil =>
    cases h
    exact ⟨rfl, rfl⟩
  | cons p ps ih =>
    rw [List.forM] at h
    obtain ⟨_, s₁, hfirst, h⟩ := run_bind_eq_ok.mp h
    obtain ⟨id, s₂, hfresh, hfirst⟩ := run_bind_eq_ok.mp hfirst
    obtain ⟨-, -, rfl⟩ := run_freshParameter_eq_ok.mp hfresh
    cases hfirst
    exact (ih h :)

/-- A parameter is noted as a scalar with its type, or as an aggregate in a frame object. -/
theorem lowerParameter_notes {p : Ir.Parameter}
    (h : (c.lowerParameter p).run s = .ok ((), s')) :
    (∃ id ty, s'.params = (p.name, id, ty) :: s.params ∧ s'.aggregates = s.aggregates ∧
      (ty = c.target.pointerType ∨ p.ty.isAggregate = false ∧ ty = c.lowType p.ty)) ∨
      ∃ slot, s'.params = s.params ∧
        s'.aggregates = (.param p.name, .slot slot) :: s.aggregates := by
  obtain ⟨ty, isFloat, hty, rfl⟩ | ⟨bytes, s₁, -, -, -, -, hstores, rfl⟩ :=
    run_lowerParameter_cases h
  · exact .inl ⟨_, ty, rfl, rfl, hty.imp_left (·.2)⟩
  · obtain ⟨hparams, haggregates⟩ := pieces_keep hstores
    exact .inr ⟨_, hparams, congrArg _ haggregates⟩

/-- Behind the parameters, all of them are known, and no aggregate is in registers. -/
theorem parameters_known {ps : List Ir.Parameter}
    (h : (ps.forM c.lowerParameter).run s = .ok ((), s')) :
    (∀ name, s.Knows name ∨ name ∈ ps.map (·.name) → s'.Knows name) ∧
      ∀ name parts, (name, Home.registers parts) ∈ s'.aggregates →
        (name, Home.registers parts) ∈ s.aggregates := by
  induction ps generalizing s with
  | nil =>
    cases h
    exact ⟨fun name hname => by simpa using hname, fun _ _ h => h⟩
  | cons p ps ih =>
    rw [List.forM] at h
    obtain ⟨_, s₁, hfirst, h⟩ := run_bind_eq_ok.mp h
    obtain ⟨hknows, hhomes⟩ := ih h
    have hnotes := lowerParameter_notes hfirst
    refine ⟨fun name hname => hknows name ?_, fun name parts hmem => ?_⟩
    · rw [List.map_cons, List.mem_cons, or_left_comm] at hname
      rcases hname with rfl | hknown | hrest
      · refine .inl ?_
        rcases hnotes with ⟨id, ty, hparams, -⟩ | ⟨slot, -, haggregates⟩
        · exact .inl (by simp [hparams])
        · exact .inr (by simp [State.homeSlot?, haggregates])
      · refine .inl ?_
        rcases hnotes with ⟨id, ty, hparams, haggregates, -⟩ | ⟨slot, hparams, haggregates⟩
        · refine hknown.imp (fun hlookup => ?_) fun hhome => ?_
          · rw [hparams, List.lookup_cons]
            split
            · rfl
            · exact hlookup
          · rwa [State.homeSlot?, haggregates]
        · refine hknown.imp (fun hlookup => hparams ▸ hlookup) fun hhome => ?_
          rw [State.homeSlot?, haggregates, List.lookup_cons]
          cases AggregateName.param name == AggregateName.param p.name with
          | true => rfl
          | false => exact hhome
      · exact .inr hrest
    · have hmem' := hhomes name parts hmem
      rcases hnotes with ⟨id, ty, -, haggregates, -⟩ | ⟨slot, -, haggregates⟩
      · exact haggregates ▸ hmem'
      · rw [haggregates] at hmem'
        exact (List.mem_cons.mp hmem').resolve_left (by rintro ⟨⟩)

end Retarget.Lowering
