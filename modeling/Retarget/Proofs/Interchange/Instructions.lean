import Retarget.Proofs.Interchange.Records

/-!
# Values and instructions

An alternative whose content is a record takes two units of depth, and its fields are read at what
is left.  So a value and an instruction are read back from their trees wherever these fit in depth
(`Value.ofJson?_toJson`, `Instruction.ofJson?_toJson`).  What a text cannot stand for in such a tree
is only a float constant that does not read back (`Value.readable`, `Instruction.readable`).
-/

namespace Retarget.Ir

open Json

variable {depth : Nat}

/-! ## Alternatives whose content is a record -/

section alternatives

variable {name : String} {members : List (String × Json)} {names : List String}

theorem nestingMembers_le_of_tagged (h : (tagged name (.obj members)).nesting ≤ depth) :
    ∃ inner, depth = inner + 2 ∧ nestingMembers members ≤ inner := by
  simp only [tagged, nesting, nestingMembers] at h
  exact ⟨depth - 2, by omega, by omega⟩

theorem variant?_tagged {α : Type} {reader : Nat → Fields → Option α}
    {read : String → Option (List String × (Nat → Fields → Option α))}
    (h : read name = some (names, reader)) (hsub : (members.map (·.1)).Sublist names)
    (hnodup : names.Nodup) :
    variant? read (depth + 2) (tagged name (.obj members)) = reader depth ⟨members, true⟩ := by
  rw [variant?, alternative?_tagged, Option.bind_eq_bind, Option.bind_some]
  dsimp only
  rw [h, Option.bind_eq_bind, Option.bind_some, content?_some, record?_obj hsub hnodup]

theorem Instruction.ofJson?_tagged {reader : Nat → Fields → Option Instruction}
    (hname : name ≠ "Return") (h : Instruction.ofRecord? name = some (names, reader))
    (hsub : (members.map (·.1)).Sublist names) (hnodup : names.Nodup) :
    Instruction.ofJson? (depth + 2) (tagged name (.obj members)) =
      reader depth ⟨members, true⟩ := by
  rw [Instruction.ofJson?, alternative?_tagged, Option.bind_eq_bind, Option.bind_some]
  dsimp only
  rw [if_neg hname, variant?_tagged h hsub hnodup]

end alternatives

/-! ## Values -/

/-- **A value is read back from its tree.** -/
theorem Value.ofJson?_toJson {v : Value} (h : v.toJson.nesting ≤ depth) :
    Value.ofJson? depth v.toJson = some v := by
  cases v with
  | temp id ty =>
    obtain ⟨depth, rfl, hinner⟩ := nestingMembers_le_of_tagged h
    simp only [nestingMembers, max_le_iff] at hinner
    rw [Value.toJson, Value.ofJson?, variant?_tagged (by rfl) (by simp) (by simp)]
    simp [Ty.ofJson?_toJson, hinner]
  | param name ty =>
    obtain ⟨depth, rfl, hinner⟩ := nestingMembers_le_of_tagged h
    simp only [nestingMembers, max_le_iff] at hinner
    rw [Value.toJson, Value.ofJson?, variant?_tagged (by rfl) (by simp) (by simp)]
    simp [Ty.ofJson?_toJson, hinner]
  | constant value ty =>
    obtain ⟨depth, rfl, hinner⟩ := nestingMembers_le_of_tagged h
    simp only [nestingMembers, max_le_iff] at hinner
    rw [Value.toJson, Value.ofJson?, variant?_tagged (by rfl) (by simp) (by simp)]
    simp [Ty.ofJson?_toJson, hinner]
  | floatConstant value ty =>
    obtain ⟨depth, rfl, hinner⟩ := nestingMembers_le_of_tagged h
    simp only [nestingMembers, max_le_iff] at hinner
    rw [Value.toJson, Value.ofJson?, variant?_tagged (by rfl) (by simp) (by simp)]
    simp [Ty.ofJson?_toJson, hinner, float?]
  | global name ty =>
    obtain ⟨depth, rfl, hinner⟩ := nestingMembers_le_of_tagged h
    simp only [nestingMembers, max_le_iff] at hinner
    rw [Value.toJson, Value.ofJson?, variant?_tagged (by rfl) (by simp) (by simp)]
    simp [Ty.ofJson?_toJson, hinner]

theorem Value.toJson_ne_null (v : Value) : v.toJson ≠ .null := by
  cases v <;> simp [Value.toJson, tagged]

theorem list?_toJson {values : List Value} (h : (Json.arr (values.map (·.toJson))).nesting ≤ depth) :
    list? Value.ofJson? depth (.arr (values.map (·.toJson))) = some values := by
  rw [nesting] at h
  obtain ⟨depth, rfl⟩ : ∃ n, depth = n + 1 := ⟨depth - 1, by omega⟩
  refine list?_arr fun v hv => Value.ofJson?_toJson ?_
  exact (nesting_le_of_mem (List.mem_map_of_mem hv)).trans (Nat.le_of_succ_le_succ h)

theorem nullable?_toJson {value : Option Value}
    (h : (nullable Value.toJson value).nesting ≤ depth) :
    nullable? (Value.ofJson? depth) (nullable Value.toJson value) = some value := by
  refine nullable?_nullable (fun v hv => Value.ofJson?_toJson ?_) fun v _ => v.toJson_ne_null
  obtain rfl := Option.mem_def.mp hv
  exact h

/-- The float constant that a value may be. -/
def Value.floats : Value → List Float
  | .floatConstant x _ => [x]
  | _ => []

theorem Value.readable {v : Value} (h : ∀ x ∈ v.floats, ReadsBack x) : v.toJson.Readable := by
  cases v with
  | floatConstant x ty =>
    have hx : (Json.float x).Readable := .float (h x (by simp [Value.floats]))
    simp [Value.toJson, hx]
  | _ => simp [Value.toJson]

/-! ## Names -/

@[simp] theorem BinaryOp.ofJson?_name (op : BinaryOp) :
    BinaryOp.ofJson? depth (.str op.name) = some op := by
  rw [BinaryOp.ofJson?, plainName?]
  cases op <;> rfl

@[simp] theorem UnaryOp.ofJson?_name (op : UnaryOp) :
    UnaryOp.ofJson? depth (.str op.name) = some op := by
  rw [UnaryOp.ofJson?, plainName?]
  cases op <;> rfl

@[simp] theorem Relation.ofJson?_name (relation : Relation) :
    Relation.ofJson? depth (.str relation.name) = some relation := by
  rw [Relation.ofJson?, plainName?]
  cases relation <;> rfl

@[simp] theorem uint32?_encodeId (id : TempId) : uint32? (encodeId id) = some id := by
  rw [encodeId, uint32?_toNat]

/-! ## Instructions -/

/-- **An instruction is read back from its tree.** -/
theorem Instruction.ofJson?_toJson {i : Instruction} (h : i.toJson.nesting ≤ depth) :
    Instruction.ofJson? depth i.toJson = some i := by
  cases i with
  | binary result op lhs rhs ty =>
    obtain ⟨depth, rfl, hinner⟩ := nestingMembers_le_of_tagged h
    simp only [nestingMembers, max_le_iff] at hinner
    rw [Instruction.toJson,
      Instruction.ofJson?_tagged (by simp) (by rw [ofRecord?]) (by simp) (by simp)]
    simp [Value.ofJson?_toJson, Ty.ofJson?_toJson, hinner]
  | unary result op operand ty =>
    obtain ⟨depth, rfl, hinner⟩ := nestingMembers_le_of_tagged h
    simp only [nestingMembers, max_le_iff] at hinner
    rw [Instruction.toJson,
      Instruction.ofJson?_tagged (by simp) (by rw [ofRecord?]) (by simp) (by simp)]
    simp [Value.ofJson?_toJson, Ty.ofJson?_toJson, hinner]
  | compare result relation lhs rhs =>
    obtain ⟨depth, rfl, hinner⟩ := nestingMembers_le_of_tagged h
    simp only [nestingMembers, max_le_iff] at hinner
    rw [Instruction.toJson,
      Instruction.ofJson?_tagged (by simp) (by rw [ofRecord?]) (by simp) (by simp)]
    simp [Value.ofJson?_toJson, hinner]
  | stackAlloc result name ty =>
    obtain ⟨depth, rfl, hinner⟩ := nestingMembers_le_of_tagged h
    simp only [nestingMembers, max_le_iff] at hinner
    rw [Instruction.toJson,
      Instruction.ofJson?_tagged (by simp) (by rw [ofRecord?]) (by simp) (by simp)]
    simp [Ty.ofJson?_toJson, hinner]
  | load result ptr ty =>
    obtain ⟨depth, rfl, hinner⟩ := nestingMembers_le_of_tagged h
    simp only [nestingMembers, max_le_iff] at hinner
    rw [Instruction.toJson,
      Instruction.ofJson?_tagged (by simp) (by rw [ofRecord?]) (by simp) (by simp)]
    simp [Value.ofJson?_toJson, Ty.ofJson?_toJson, hinner]
  | store value ptr =>
    obtain ⟨depth, rfl, hinner⟩ := nestingMembers_le_of_tagged h
    simp only [nestingMembers, max_le_iff] at hinner
    rw [Instruction.toJson,
      Instruction.ofJson?_tagged (by simp) (by rw [ofRecord?]) (by simp) (by simp)]
    simp [Value.ofJson?_toJson, hinner]
  | elementPtr result source index ty =>
    obtain ⟨depth, rfl, hinner⟩ := nestingMembers_le_of_tagged h
    simp only [nestingMembers, max_le_iff] at hinner
    rw [Instruction.toJson,
      Instruction.ofJson?_tagged (by simp) (by rw [ofRecord?]) (by simp) (by simp)]
    simp [Value.ofJson?_toJson, Ty.ofJson?_toJson, hinner]
  | memCopy dest source bytes =>
    obtain ⟨depth, rfl, hinner⟩ := nestingMembers_le_of_tagged h
    simp only [nestingMembers, max_le_iff] at hinner
    rw [Instruction.toJson,
      Instruction.ofJson?_tagged (by simp) (by rw [ofRecord?]) (by simp) (by simp)]
    simp [Value.ofJson?_toJson, hinner]
  | call result callee args ty returnBuffer =>
    obtain ⟨depth, rfl, hinner⟩ := nestingMembers_le_of_tagged h
    simp only [nestingMembers, max_le_iff] at hinner
    have hresult : nullable? uint32? (nullable encodeId result) = some result :=
      nullable?_nullable (fun _ _ => uint32?_encodeId _) fun _ _ => by simp [encodeId]
    have hbuffer : nullable? uint64? (nullable (fun n : UInt64 => .integer n.toNat) returnBuffer) =
        some returnBuffer :=
      nullable?_nullable (fun _ _ => uint64?_toNat _) fun _ _ => by simp
    rw [Instruction.toJson,
      Instruction.ofJson?_tagged (by simp) (by rw [ofRecord?]) (by simp) (by simp)]
    simp [Ty.ofJson?_toJson, list?_toJson, hresult, hbuffer, hinner]
  | jump target =>
    obtain ⟨depth, rfl, hinner⟩ := nestingMembers_le_of_tagged h
    rw [Instruction.toJson,
      Instruction.ofJson?_tagged (by simp) (by rw [ofRecord?]) (by simp) (by simp)]
    simp
  | branch condition trueTarget falseTarget =>
    obtain ⟨depth, rfl, hinner⟩ := nestingMembers_le_of_tagged h
    simp only [nestingMembers, max_le_iff] at hinner
    rw [Instruction.toJson,
      Instruction.ofJson?_tagged (by simp) (by rw [ofRecord?]) (by simp) (by simp)]
    simp [Value.ofJson?_toJson, hinner]
  | ret value =>
    simp only [Instruction.toJson, tagged, nesting, nestingMembers] at h
    obtain ⟨depth, rfl⟩ : ∃ n, depth = n + 1 := ⟨depth - 1, by omega⟩
    rw [Instruction.toJson, Instruction.ofJson?, alternative?_tagged, Option.bind_eq_bind,
      Option.bind_some]
    dsimp only
    rw [if_pos rfl, content?_some, nullable?_toJson (by omega)]
    rfl

def Instruction.values : Instruction → List Value
  | .binary _ _ lhs rhs _ | .compare _ _ lhs rhs => [lhs, rhs]
  | .unary _ _ operand _ => [operand]
  | .load _ ptr _ => [ptr]
  | .store value ptr => [value, ptr]
  | .elementPtr _ source index _ => [source, index]
  | .memCopy dest source _ => [dest, source]
  | .call _ _ args _ _ => args
  | .branch condition _ _ => [condition]
  | .ret value => value.toList
  | .stackAlloc .. | .jump _ => []

theorem Instruction.readable {i : Instruction} (h : ∀ v ∈ i.values, v.toJson.Readable) :
    i.toJson.Readable := by
  cases i with
  | call result callee args ty returnBuffer =>
    have hresult : (nullable encodeId result).Readable :=
      readable_nullable fun id _ => readable_uint32 id
    have hbuffer : (nullable (fun n : UInt64 => .integer n.toNat) returnBuffer).Readable :=
      readable_nullable fun n _ => readable_uint64 n
    have hargs : ∀ v ∈ args, v.toJson.Readable := h
    simpa [Instruction.toJson, hresult, hbuffer] using hargs
  | branch condition trueTarget falseTarget =>
    have htarget : (nullable .str falseTarget).Readable := readable_nullable fun _ _ => .str _
    have hcondition : condition.toJson.Readable := h condition (by simp [Instruction.values])
    simp [Instruction.toJson, htarget, hcondition]
  | ret value =>
    have hvalue : (nullable Value.toJson value).Readable :=
      readable_nullable fun v hv => h v (Option.mem_toList.mpr hv)
    simpa [Instruction.toJson] using hvalue
  | _ => simp_all [Instruction.toJson, Instruction.values, encodeId]

end Retarget.Ir
