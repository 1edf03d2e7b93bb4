import Mathlib.Data.List.Forall2
import Retarget.Proofs.Convention.Results
import Retarget.Proofs.Convention.Staging

/-!
# Caller and callee agree on arguments

A call moves each of its arguments (`Scope.Conveys`) into the registers that a function with
parameters of the same types takes them from (`Scope.Declares`), piece by piece for an aggregate, and
the call is rejected if and only if the parameters are (`arguments_agree`).
-/

namespace Retarget.Lowering

open Machine

variable {c : Scope} {s s' : State}

/-! ## Arguments and the moves for them -/

/-- The moves carry all parts of the argument, in their order: what each part is, or what was fetched
of it. -/
def Scope.Conveys (c : Scope) (s : State) (fetched : List Fill) (isBuffer : Bool) (arg : Ir.Value)
    (group : List Placed) : Prop :=
  ∃ parts, c.HasParts s arg isBuffer parts ∧ List.Forall₂ (Placed.Carries c s fetched) group parts

theorem Scope.Delivers.conveys {fetched : List Fill} {isBuffer : Bool} {arg : Ir.Value}
    {group : List Placed} (h : c.Delivers s fetched isBuffer arg group) (hpass : s.CanPass c arg) :
    c.Conveys s fetched isBuffer arg group := by
  obtain ⟨whole, parts, hparts, -, hwhole, hcarries⟩ := h
  exact ⟨parts, hwhole hpass ▸ hparts, hcarries⟩

def wanted (t : Target) (p : Ir.Parameter) : Nat := ((wants? t p).getD []).length

/-- An argument has a part for each register that its parameter wants. -/
theorem Scope.HasParts.length_eq {arg : Ir.Value} {isBuffer : Bool} {parts : List Part}
    {p : Ir.Parameter} {ws : List Want} (h : c.HasParts s arg isBuffer parts)
    (hpass : s.CanPass c arg) (hty : arg.ty = p.ty) (hbuffer : p.isReturnBuffer = isBuffer)
    (hws : wants? c.target p = some ws) : parts.length = ws.length := by
  rw [wants?, hbuffer, ← hty] at hws
  have hpieces : ∀ {bytes}, arg.ty.isAggregate → arg.ty.size c.target.pointerBytes = .ok bytes →
      isBuffer = false → (pieces c.target.pointerBytes bytes).length = ws.length := by
    rintro bytes haggregate hsize rfl
    simp only [haggregate, hsize, if_true, Bool.false_eq_true, if_false] at hws
    split at hws
    · cases hws
      rw [List.length_map]
    · cases hws
  cases h with
  | buffer => cases hws; rfl
  | scalar hscalar =>
    rw [hscalar] at hws
    cases hws
    rfl
  | registers haggregate hhome =>
    obtain ⟨bytes, hsize, hsame⟩ := hpass.typed _ hhome
    rw [List.length_map, ← hpieces haggregate hsize rfl, ← hsame, List.length_map]
  | memory haggregate _ _ hsize => rw [List.length_map, hpieces haggregate hsize rfl]

theorem lengths_of_conveys {returnBuffer : Option Nat} {fetched : List Fill}
    {params : List Ir.Parameter} {args : List Ir.Value} {k : Nat} {ws : List Want}
    {groups : List (List Placed)} (hstands : Stands returnBuffer k params args)
    (hpass : ∀ arg ∈ args, s.CanPass c arg) (hws : wantsOf? c.target params = some ws)
    (h : List.Forall₂ (fun arg group => c.Conveys s fetched (returnBuffer == some arg.2) arg.1 group)
      (args.zipIdx k) groups) :
    groups.map (·.length) = params.map (wanted c.target) := by
  induction params generalizing args k ws groups with
  | nil =>
    have hnil : args = [] := by simpa using hstands.types
    subst hnil
    cases h
    rfl
  | cons p params ih =>
    obtain ⟨arg, args, rfl, hty, hbuffer, hstands⟩ := hstands.cons
    obtain ⟨hfirst, hpass⟩ := List.forall_mem_cons.mp hpass
    obtain ⟨first, others, hfirst', hothers, rfl⟩ := wantsOf?_cons.mp hws
    rw [List.zipIdx_cons] at h
    obtain ⟨group, groups, ⟨parts, hparts, hcarries⟩, hgroups, rfl⟩ :=
      List.forall₂_cons_left_iff.mp h
    have hbuffer' : p.isReturnBuffer = (returnBuffer == some k) := by
      rw [Bool.eq_iff_iff, hbuffer, beq_iff_eq]
    rw [List.map_cons, List.map_cons, ih hstands hpass hothers hgroups, hcarries.length_eq,
      hparts.length_eq hfirst hty hbuffer' hfirst', wanted, hfirst']
    rfl

/-! ## Parameters and the machine parameters for them -/

/-- What a function has a parameter from.  A scalar, or the caller's buffer, is one machine parameter,
and is found by its name.  An aggregate is in a frame object, into which one machine parameter is
stored for each of its pieces. -/
inductive Scope.Takes (c : Scope) (s : State) (p : Ir.Parameter) : List Parameter → Prop
  | whole {q : Parameter} (hwhole : p.isReturnBuffer ∨ p.ty.isAggregate = false)
    (hnoted : s.params.lookup p.name = some (q.id, q.ty)) : c.Takes s p [q]
  | pieces {bytes : Nat} {slot : Slot} {group : List Parameter} (hbuffer : p.isReturnBuffer = false)
    (haggregate : p.ty.isAggregate)
    (hsize : p.ty.size c.target.pointerBytes = .ok bytes)
    (hhome : s.aggregates.lookup (.param p.name) = some (.slot slot))
    (htypes : List.Forall₂ (fun piece q => q.ty = piece.ty)
      (Lowering.pieces c.target.pointerBytes bytes) group)
    (hstores : List.zipWith (fun piece q => Instruction.generic .store
        [piece.of (.stack slot 0 c.target.pointerType), .parameter q.id q.ty])
      (Lowering.pieces c.target.pointerBytes bytes) group <:+ s.code.toList) : c.Takes s p group

/-- Behind the parameters in front of it, the function turns the parameter into the machine
parameters of the group. -/
def Scope.Declares (c : Scope) (g : Ir.Function) (p : Ir.Parameter × Nat) (group : List Parameter) :
    Prop :=
  ∃ s s', ((g.parameters.take p.2).forM c.lowerParameter).run (.start g) = .ok ((), s) ∧
    (c.lowerParameter p.1).run s = .ok ((), s') ∧
    s'.function.params = s.function.params ++ group ∧ c.Takes s' p.1 group

/-- Each piece of an aggregate has a machine parameter, which is stored in its place. -/
theorem exists_parameters_of_pieces {ps : List Piece} {base : Operand}
    (h : (ps.forM fun piece => do
      let id ← freshParameter piece.ty false false
      emit .store [piece.of base, .parameter id piece.ty]).run s = .ok ((), s')) :
    ∃ group : List Parameter, s'.function.params = s.function.params ++ group ∧
      List.Forall₂ (fun piece q => q.ty = piece.ty) ps group ∧
      s'.code.toList = s.code.toList ++ List.zipWith (fun piece q =>
        Instruction.generic .store [piece.of base, .parameter q.id q.ty]) ps group := by
  induction ps generalizing s with
  | nil =>
    cases h
    exact ⟨[], by simp, .nil, by simp⟩
  | cons p ps ih =>
    rw [List.forM] at h
    obtain ⟨_, s₁, hfirst, h⟩ := run_bind_eq_ok.mp h
    obtain ⟨id, s₂, hfresh, hfirst⟩ := run_bind_eq_ok.mp hfirst
    obtain ⟨-, rfl, rfl⟩ := run_freshParameter_eq_ok.mp hfresh
    rw [run_emit] at hfirst
    cases hfirst
    obtain ⟨group, hparams, htypes, hcode⟩ := ih h
    refine ⟨⟨s.function.nextId, p.ty, false, false⟩ :: group, ?_, .cons rfl htypes, ?_⟩
    · rw [hparams]
      exact List.append_assoc _ _ _
    · rw [hcode, State.code_append, List.append_assoc]
      rfl

/-- **A lowered parameter** has the machine parameters that it adds. -/
theorem exists_takes {p : Ir.Parameter} (h : (c.lowerParameter p).run s = .ok ((), s')) :
    ∃ group, s'.function.params = s.function.params ++ group ∧ c.Takes s' p group := by
  obtain ⟨ty, isFloat, hwhole, rfl⟩ | ⟨bytes, s₁, hbuffer, haggregate, hsize, -, hstores, rfl⟩ :=
    run_lowerParameter_cases h
  · exact ⟨[⟨s.function.nextId, ty, isFloat, p.isReturnBuffer⟩], rfl,
      .whole (hwhole.imp And.left And.left) List.lookup_cons_self⟩
  · obtain ⟨group, hparams, htypes, hcode⟩ := exists_parameters_of_pieces hstores
    exact ⟨group, hparams, .pieces hbuffer haggregate hsize List.lookup_cons_self htypes
      (hcode ▸ List.suffix_append _ _)⟩

/-- Parameters become machine parameters one by one, as many as each of them wants. -/
theorem exists_groups_of_parameters (a : Arch) (hc : c.target = a.target) {g : Ir.Function}
    {done ps : List Ir.Parameter} (hsplit : g.parameters = done ++ ps)
    (hdone : (done.forM c.lowerParameter).run (.start g) = .ok ((), s))
    (h : (ps.forM c.lowerParameter).run s = .ok ((), s')) :
    ∃ groups : List (List Parameter),
      s'.function.params = s.function.params ++ groups.flatten ∧
      List.Forall₂ (c.Declares g) (ps.zipIdx done.length) groups ∧
      groups.map (·.length) = ps.map (wanted c.target) := by
  induction ps generalizing done s with
  | nil =>
    cases h
    exact ⟨[], by simp, .nil, rfl⟩
  | cons p ps ih =>
    rw [List.forM] at h
    obtain ⟨_, s₁, hfirst, h⟩ := run_bind_eq_ok.mp h
    obtain ⟨ws, hws⟩ := wants?_of_lowerParameter hfirst
    obtain ⟨new, hnew⟩ := (provides_lowerParameter a hc hws).adds _ _ hfirst
    obtain ⟨group, hgroup, htakes⟩ := exists_takes hfirst
    cases List.append_cancel_left (hgroup.symm.trans hnew.params)
    have hdone' : ((done ++ [p]).forM c.lowerParameter).run (.start g) = .ok ((), s₁) := by
      rw [List.forM_eq_forM, List.forM_append]
      refine run_bind_eq_ok.mpr ⟨(), s, hdone, ?_⟩
      rw [List.forM_cons]
      exact run_bind_eq_ok.mpr ⟨(), s₁, hfirst, rfl⟩
    obtain ⟨groups, hparams, hdeclares, hlengths⟩ := ih (by simpa using hsplit) hdone' h
    rw [List.length_append, List.length_singleton] at hdeclares
    rw [List.zipIdx_cons]
    refine ⟨new :: groups, ?_, .cons ⟨s, s₁, ?_, hfirst, hgroup, htakes⟩ hdeclares, ?_⟩
    · rw [hparams, hnew.params, List.flatten_cons, List.append_assoc]
    · rw [hsplit, List.take_left]
      exact hdone
    · have hlength := congrArg List.length hnew.wants
      rw [List.length_map] at hlength
      rw [List.map_cons, List.map_cons, hlengths, hlength, wanted, hws]
      rfl

theorem forall₂_of_flatten {α β γ : Type} {f : α → γ} {g : β → γ} {xss : List (List α)}
    {yss : List (List β)} (hlengths : xss.map (·.length) = yss.map (·.length))
    (h : xss.flatten.map f = yss.flatten.map g) :
    List.Forall₂ (fun xs ys => xs.map f = ys.map g) xss yss := by
  induction xss generalizing yss with
  | nil =>
    have hnil : yss = [] := by simpa using hlengths
    exact hnil ▸ .nil
  | cons xs xss ih =>
    obtain ⟨ys, yss, rfl, hlength, hrest⟩ := List.map_eq_cons_iff.mp hlengths.symm
    rw [List.flatten_cons, List.flatten_cons, List.map_append, List.map_append] at h
    obtain ⟨hfirst, hothers⟩ := List.append_inj h (by simp [hlength])
    exact .cons hfirst (ih hrest.symm hothers)

/-! ## Results of calls -/

/-- What happens to the result of a call. -/
def Scope.receive (c : Scope) (callee : String) (ty : Ir.Ty) : Option Ir.TempId → Lower Unit
  | none => return
  | some result =>
    if ty.isAggregate then c.receiveAggregate callee result ty else c.receiveScalar result ty

theorem lowerCall_eq_bind (result : Option Ir.TempId) (callee : String) (args : List Ir.Value)
    (ty : Ir.Ty) (returnBuffer : Option Nat) :
    c.lowerCall result callee args ty returnBuffer =
      c.lowerCall none callee args ty returnBuffer >>= fun _ => c.receive callee ty result := by
  simp only [Scope.lowerCall, bind_assoc, pure_bind]
  cases result <;> rfl

/-- The result of the call fits the registers for results. -/
def Scope.CanReceive (c : Scope) (ty : Ir.Ty) : Prop :=
  if ty.isAggregate then
    ∃ bytes, ty.size c.target.pointerBytes = .ok bytes ∧
      bytes * 8 ≤ c.target.convention.maxAggregateBits
  else ∃ root, (c.target.convention.resultsOf ty.isFloat).head? = some root

theorem succeeds_receive (a : Arch) (hc : c.target = a.target) (callee : String) {ty : Ir.Ty}
    {result : Option Ir.TempId} (h : result.isSome → c.CanReceive ty) :
    Succeeds s (c.receive callee ty result) 1 fun _ => True := by
  cases result with
  | none => exact .pure trivial 1
  | some result =>
    have hreceive := h rfl
    rw [Scope.CanReceive] at hreceive
    rw [Scope.receive]
    split
    · next haggregate =>
      rw [if_pos haggregate] at hreceive
      obtain ⟨bytes, hsize, hfits⟩ := hreceive
      intro hid
      have hrun : (c.receiveAggregate callee result ty).run s =
          .ok ((), c.received result bytes s) :=
        (run_receiveAggregate_eq_ok a hc hid).mpr ⟨bytes, hsize, hfits, rfl⟩
      exact ⟨(), _, hrun, Nat.le_refl _, trivial⟩
    · next haggregate =>
      rw [if_neg haggregate] at hreceive
      obtain ⟨root, hroot⟩ := hreceive
      have hcheck : ∀ failure, Succeeds s (check (orFail failure
          (c.target.convention.resultsOf ty.isFloat).head?)) 0 fun _ => True := fun failure _ =>
        ⟨root, s, run_check_eq_ok.mpr ⟨orFail_eq_ok.mpr hroot, rfl⟩, Nat.le_refl _, trivial⟩
      refine (hcheck _).bind (n := 1) (Nat.le_refl 1) fun root s₁ hrun _ => ?_
      exact (succeeds_tempReg result _).bind (n := 0) (Nat.le_refl 1) fun _ _ _ _ =>
        succeeds_emit _ _

theorem receive_code {callee : String} {ty : Ir.Ty} {result : Option Ir.TempId}
    (h : (c.receive callee ty result).run s = .ok ((), s')) :
    ∃ received, s'.code.toList = s.code.toList ++ received := by
  have hgoes : Goes (fun _ => True) (fun _ => True) s (c.receive callee ty result)
      fun _ => True := by
    cases result with
    | none => exact .pure trivial
    | some result =>
      rw [Scope.receive]
      split
      · exact goes_receiveAggregate (fun _ _ _ => trivial) callee result ty fun _ => trivial
      · exact goes_receiveScalar (fun _ _ _ => trivial) result ty
  obtain ⟨received, hcode, -⟩ := exists_code_of_evolves (hgoes.ok _ _ h).1
  exact ⟨received, hcode⟩

/-! ## Arguments of calls in a function -/

/-- The function has the value: floating-point constants and constants of aggregate types cannot be
passed, and a parameter is one of the function. -/
def Reads (f : Ir.Function) : Ir.Value → Prop
  | .floatConstant _ _ => False
  | .constant _ ty => ty.isAggregate = false
  | .param name _ => name ∈ f.parameters.map (·.name)
  | .temp _ _ | .global _ _ => True

/-- The function loads the temporary at the type. -/
def LoadsAt (f : Ir.Function) (id : Ir.TempId) (ty : Ir.Ty) : Prop :=
  ∃ b ∈ f.blocks, ∃ ptr, .load id ptr ty ∈ b.instructions

/-- What is known of values while a function is lowered: where its parameters live, and that only
what it loads lives in registers. -/
structure State.Tracks (registerBytes : Nat) (f : Ir.Function) (s : State) : Prop where
  knows : ∀ name ∈ f.parameters.map (·.name), s.Knows name
  loaded : ∀ name parts, (name, Home.registers parts) ∈ s.aggregates →
    ∃ id, name = .temp id ∧ NotesIn registerBytes f (.home id (.registers parts))

theorem State.Tracks.step {registerBytes : Nat} {f : Ir.Function} (h : s.Tracks registerBytes f)
    (hstep : Step (fun _ => True) (NotesIn registerBytes f) s s') : s'.Tracks registerBytes f := by
  cases hstep with
  | @note n hnote =>
    cases n with
    | object id slot => exact ⟨h.knows, h.loaded⟩
    | home id home =>
      refine ⟨fun name hname => ?_, fun name parts hmem => ?_⟩
      · refine (h.knows name hname).imp_right fun hslot => ?_
        rw [State.note, State.homeSlot?, List.lookup_cons]
        exact hslot
      · rcases List.mem_cons.mp hmem with heq | hmem
        · cases heq
          exact ⟨id, rfl, hnote⟩
        · exact h.loaded name parts hmem
  | _ => exact ⟨h.knows, h.loaded⟩

variable {f : Ir.Function} {todo : List Ir.Instruction} {b : Ir.Block} {rest : List Ir.Block}

theorem Reaches.tracks (h : Reaches c f todo b rest s) : s.Tracks c.target.pointerBytes f := by
  refine h.keeps (fun s hs => ?_) (fun s s' hs hstep => hs.step hstep) fun s s' name hs hclose => ?_
  · obtain ⟨hknown, hhomes⟩ := parameters_known hs
    refine ⟨fun name hname => hknown name (.inr hname), fun name parts hmem => ?_⟩
    exact absurd (hhomes name parts hmem) (List.not_mem_nil)
  · cases hclose
    exact ⟨hs.knows, hs.loaded⟩

/-- What lives in registers is a temporary that the function loads, with the pieces that it loads. -/
theorem State.Tracks.exists_load {registerBytes : Nat} (h : s.Tracks registerBytes f)
    {arg : Ir.Value} {parts : List (RegId × Piece)} (hparts : s.homeRegisters? arg = some parts) :
    ∃ id ty loaded, arg = .temp id ty ∧ LoadsAt f id loaded ∧
      NotesLoad registerBytes loaded (.registers parts) := by
  rw [State.homeRegisters?] at hparts
  split at hparts
  · next home hlookup =>
    cases hparts
    obtain ⟨name, hname, hlookup⟩ := Option.bind_eq_some_iff.mp hlookup
    obtain ⟨before, behind, hsplit, -⟩ := List.lookup_eq_some_iff.mp hlookup
    obtain ⟨id, rfl, b, hb, i, hi, ptr, loaded, rfl, hnotes⟩ :=
      h.loaded name parts (by simp [hsplit])
    cases arg with
    | temp id' ty =>
      cases hname
      exact ⟨id, ty, loaded, rfl, ⟨b, hb, ptr, hi⟩, hnotes⟩
    | param name ty => cases hname
    | _ => cases hname
  · cases hparts

theorem State.Tracks.canPass (h : s.Tracks c.target.pointerBytes f) {arg : Ir.Value}
    (hreads : Reads f arg)
    (htemp : ∀ id ty, arg = .temp id ty → ∀ ty', LoadsAt f id ty' → ty' = ty) :
    s.CanPass c arg := by
  constructor
  · cases arg with
    | param name ty => exact h.knows name hreads
    | _ => exact hreads
  · intro parts hparts
    obtain ⟨id, ty, loaded, rfl, hload, hnotes⟩ := h.exists_load hparts
    rw [htemp id ty rfl loaded hload] at hnotes
    exact hnotes

/-! ## Agreement -/

/-- What a call in the state `s`, with the outcome `call`, and a function `g` do for arguments.
Either both give up, or the call moves each argument, piece by piece, into the full-width registers
that `g` binds to the machine parameters of the parameter in its place. -/
structure ArgumentsAgree (c : Scope) (s : State) (callee : String) (args : List Ir.Value)
    (returnBuffer : Option Nat) (g : Ir.Function) (call : Result (Unit × State)) : Prop where
  succeeds : (∃ s', call = .ok ((), s')) ↔ ∃ r, parameterBindings c.target g = .ok r
  registers : ∀ s' ps bound, call = .ok ((), s') →
    parameterBindings c.target g = .ok (ps, bound) →
    ∃ (s₁ : State) (fetched : List Fill) (received : List Instruction)
      (placed : List (List Placed)) (params : List (List Parameter)),
      -- The call, behind code that fetches and one move for each register that is written.
      Fetches s.calling s₁ fetched ∧
      s'.code.toList = s₁.code.toList ++ placed.flatten.map (c.moveOf s₁) ++
        .generic .call [.function callee] :: received ∧
      (∀ p ∈ placed.flatten, (c.moveOf s₁ p).def? = some p.dest) ∧
      -- Each group of moves is for an argument, and each of machine parameters for a parameter.
      List.Forall₂ (fun arg group =>
        c.Conveys s₁ fetched (returnBuffer == some arg.2) arg.1 group) args.zipIdx placed ∧
      List.Forall₂ (Scope.Declares ⟨c.target, g.name⟩ g) g.parameters.zipIdx params ∧
      ps = params.flatten ∧
      List.Forall₂ (fun group declared => group.map (fun p => rootOf c.target p.dest) =
        declared.map fun p => (p.ty, bound.lookup p.id)) placed params

/-- **Caller and callee agree on the registers of arguments.**  The call is one that the lowering of
`f` comes to, its arguments have the types of the parameters of `g`, and temporaries that `f` loads
are passed at the type that they are loaded at. -/
theorem arguments_agree (a : Arch) {g : Ir.Function} {result : Option Ir.TempId} {callee : String}
    {args : List Ir.Value} {ty : Ir.Ty} {returnBuffer : Option UInt64}
    (hreach : Reaches ⟨a.target, f.name⟩ f (.call result callee args ty returnBuffer :: todo)
      b rest s)
    (htypes : args.map (·.ty) = g.parameters.map (·.ty))
    (hbuffer : ∀ (k : Nat) (p : Ir.Parameter), g.parameters[k]? = some p →
      (p.isReturnBuffer ↔ returnBuffer.map (·.toNat) = some k))
    (hreads : ∀ arg ∈ args, Reads f arg)
    (htemps : ∀ id ty, .temp id ty ∈ args → ∀ ty', LoadsAt f id ty' → ty' = ty)
    (hresult : result.isSome → Scope.CanReceive ⟨a.target, f.name⟩ ty)
    (hids : s.function.nextId + 2 * args.length + 17 < Word.modulus 32) :
    ArgumentsAgree ⟨a.target, f.name⟩ s callee args (returnBuffer.map (·.toNat)) g
      ((Scope.lowerInstruction ⟨a.target, f.name⟩ (rest.head?.map (·.name))
        (.call result callee args ty returnBuffer)).run s) := by
  have hstands : Stands (returnBuffer.map (·.toNat)) 0 g.parameters args :=
    ⟨htypes, fun k p hp => by simpa using hbuffer k p hp⟩
  have hpass : ∀ arg ∈ args, s.calling.CanPass ⟨a.target, f.name⟩ arg := fun arg harg =>
    (hreach.tracks.canPass (hreads arg harg) fun id ty heq => htemps id ty (heq ▸ harg)).of_sameValues
      ⟨rfl, rfl, rfl⟩
  have hlength : args.length = g.parameters.length := by simpa using congrArg List.length htypes
  rw [Scope.lowerInstruction, lowerCall_eq_bind]
  constructor
  · constructor
    · rintro ⟨s', hrun⟩
      obtain ⟨_, s₂, hcall, -⟩ := run_bind_eq_ok.mp hrun
      obtain ⟨placed, s₁, hplaced, -⟩ := run_lowerCall_none.mp hcall
      obtain ⟨ws, rs, hws, hrs, -⟩ := roots?_of_placeArguments a rfl hstands hpass hplaced
      have hle := length_wants_le a hws hrs
      obtain ⟨ps, bound, hbindings⟩ := exists_parameterBindings a hws hrs (by omega)
      exact ⟨(ps, bound), hbindings⟩
    · rintro ⟨⟨ps, bound⟩, hbindings⟩
      obtain ⟨hws, rs, hrs, -⟩ := roots?_of_parameterBindings a hbindings
      have hle := length_wants_le a hws hrs
      have hplace : Succeeds s.calling (Scope.placeArguments ⟨a.target, f.name⟩ callee
          (returnBuffer.map (·.toNat)) args.zipIdx {})
          (g.parameters.length + (ps.map Want.of).length) fun _ => True :=
        succeeds_placeArguments a rfl hstands hpass hws hrs
      have hnext : s.calling.function.nextId = s.function.nextId := rfl
      obtain ⟨placed, s₁, hplaced, hle₁, -⟩ := hplace (by omega)
      let moved := s₁.append (placed.map (Scope.moveOf ⟨a.target, f.name⟩ s₁) ++
        [.generic .call [.function callee]])
      have hmoved : moved.function.nextId = s₁.function.nextId := rfl
      obtain ⟨_, s₂, hreceive, -⟩ := succeeds_receive (s := moved) a rfl callee hresult (by omega)
      exact ⟨s₂, run_bind_eq_ok.mpr
        ⟨(), _, run_lowerCall_none.mpr ⟨placed, s₁, hplaced, rfl⟩, hreceive⟩⟩
  · intro s' ps bound hrun hbindings
    obtain ⟨_, s₂, hcall, hreceive⟩ := run_bind_eq_ok.mp hrun
    obtain ⟨placed, s₁, hplaced, rfl⟩ := run_lowerCall_none.mp hcall
    obtain ⟨received, hreceived⟩ := receive_code hreceive
    have hincoming : s.calling.Incoming := ⟨hreach.incoming.noted, hreach.incoming.used⟩
    obtain ⟨fetched, groups, hfetches, rfl, hdelivers⟩ :=
      delivers_placeArguments hincoming hplaced
    obtain ⟨ws, rs, hws, hrs, hroots⟩ := roots?_of_placeArguments a rfl hstands hpass hplaced
    obtain ⟨hws', rs', hrs', hbound⟩ := roots?_of_parameterBindings a hbindings
    cases hws.symm.trans hws'
    cases hrs.symm.trans hrs'
    -- in the state of the moves the arguments can still be passed, so they are moved as a whole
    have hpass₁ : ∀ arg ∈ args, s₁.CanPass ⟨a.target, f.name⟩ arg := fun arg harg =>
      (hpass arg harg).of_sameValues hfetches.same
    have hconveys : List.Forall₂ (fun arg group => Scope.Conveys ⟨a.target, f.name⟩ s₁ fetched
        (returnBuffer.map (·.toNat) == some arg.2) arg.1 group) args.zipIdx groups :=
      (forall₂_imp_mem hdelivers.flip fun group arg harg (hgroup : Scope.Delivers _ _ _ _ _ _) =>
        hgroup.conveys (hpass₁ arg.1 (List.fst_mem_of_mem_zipIdx harg))).flip
    have hlengths := lengths_of_conveys hstands hpass₁ hws hconveys
    obtain ⟨⟨_, s₃⟩, hparams, hbindings⟩ := bind_eq_ok.mp hbindings
    obtain ⟨bound', -, hbindings⟩ := bind_eq_ok.mp hbindings
    cases hbindings
    obtain ⟨declared, hdeclared, hdeclares, hlengths'⟩ :=
      exists_groups_of_parameters a rfl (List.nil_append _).symm rfl hparams
    refine ⟨s₁, fetched, received, groups, declared, hfetches, ?_, fun p _ => def?_moveOf s₁ p,
      hconveys, hdeclares, hdeclared, ?_⟩
    · rw [hreceived, State.code_append]
      simp
    · refine forall₂_of_flatten (hlengths.trans hlengths'.symm) (hroots.trans ?_)
      have hflat : declared.flatten = s₃.function.params := hdeclared.symm
      rw [hflat, granted, ← hbound, List.map_map, List.zip_map']
      rfl

/-- Arguments that are the parameters of `passing` in another order. -/
def passed : List Ir.Value :=
  [.param "y" (.array 12 .i8), .param "out" (.ptr .i8), .param "x" .f64]

def passing : Ir.Function where
  name := "f"
  returnType := .void
  parameters := [⟨"x", .f64, false⟩, ⟨"y", .array 12 .i8, false⟩, ⟨"out", .ptr .i8, false⟩]
  blocks := [⟨"entry", [.call none "g" passed .void (some 1)]⟩]

/-- A function with a buffer for its result among its parameters. -/
def taking : Ir.Function where
  name := "g"
  returnType := .void
  parameters := [⟨"b", .array 12 .i8, false⟩, ⟨"room", .ptr .i8, true⟩, ⟨"a", .f64, false⟩]

theorem passing_agrees : ∃ s,
    (passing.parameters.forM (Scope.lowerParameter ⟨.aarch64, "f"⟩)).run (.start passing) =
      .ok ((), s) ∧
    (parameterBindings .aarch64 taking).toBool ∧
    ArgumentsAgree ⟨.aarch64, "f"⟩ s "g" passed (some 1) taking
      ((Scope.lowerInstruction ⟨.aarch64, "f"⟩ none
        (.call none "g" passed .void (some 1))).run s) := by
  have hnext : ((passing.parameters.forM (Scope.lowerParameter ⟨.aarch64, "f"⟩)).run
      (.start passing)).toOption.map (·.2.function.nextId) = some 5 := by decide +kernel
  obtain ⟨⟨_, s⟩, hs, hid⟩ := Option.map_eq_some_iff.mp hnext
  have hrun : (passing.parameters.forM (Scope.lowerParameter ⟨.aarch64, "f"⟩)).run
      (.start passing) = .ok ((), s) := by
    revert hs
    cases (passing.parameters.forM (Scope.lowerParameter ⟨.aarch64, "f"⟩)).run (.start passing) with
    | error e => nofun
    | ok r => exact congrArg _ ∘ Option.some.inj
  have hblocks : passing.blocks = [⟨"entry", [.call none "g" passed .void (some 1)]⟩] := rfl
  refine ⟨s, hrun, by decide +kernel, ?_⟩
  refine arguments_agree .aarch64 (Reaches.enter hblocks hrun) rfl ?_ ?_ ?_ nofun ?_
  · intro k p hp
    match k, hp with
    | 0, hp | 1, hp | 2, hp =>
      cases hp
      decide
  · simp [passed, Reads, passing]
  · simp [passed]
  · have hid' : s.function.nextId = 5 := hid
    rw [hid']
    decide

end Retarget.Lowering
