import PacketCodec.Proofs.Value.Json
import PacketCodec.Schema.Json

/-!
# Schemas read back from JSON

A schema is read back from its JSON form as the very same tree, whatever its shapes and however they are
nested: what is absent stays absent, members keep their names and their anonymity, branches their order and
constants their signedness. Only a constant that holds a float may differ.
-/

namespace PacketCodec

/-- Whether a discriminant is a constant in which a float stands. -/
def Discriminant.hasFloat : Discriminant → Bool
  | .field _ => false
  | .constant value => value.hasFloat

namespace Schema

mutual

/-- Whether a float stands in the constant of any switch of a schema. -/
def hasFloatConstant : Schema → Bool
  | .ref _ => false
  | .primitive _ => false
  | .text countType => hasFloatConstant countType
  | .buffer _ countType => optionHasFloatConstant countType
  | .option inner => hasFloatConstant inner
  | .array element _ countType => hasFloatConstant element || optionHasFloatConstant countType
  | .container fields => fieldsHaveFloatConstant fields
  | .switch on branches default =>
    on.hasFloat || (branchesHaveFloatConstant branches || optionHasFloatConstant default)

def optionHasFloatConstant : Option Schema → Bool
  | none => false
  | some s => hasFloatConstant s

def fieldsHaveFloatConstant : List (Field Schema) → Bool
  | [] => false
  | ⟨_, s, _⟩ :: rest => hasFloatConstant s || fieldsHaveFloatConstant rest

def branchesHaveFloatConstant : List (String × Schema) → Bool
  | [] => false
  | (_, s) :: rest => hasFloatConstant s || branchesHaveFloatConstant rest

end

end Schema

theorem Discriminant.ofJson?_toJson (on : Discriminant) (h : on.hasFloat = false) :
    ofJson? on.toJson = some on := by
  cases on with
  | field path => rfl
  | constant value =>
    have hvalue : Value.ofJson? value.toJson = some value := Value.ofJson?_toJson value h
    simp [toJson, ofJson?, hvalue]

namespace Schema

@[simp]
theorem countOfJson?_countToJson (count : Option UInt64) :
    countOfJson? (countToJson count) = some count := by
  cases count with
  | none => rfl
  | some n =>
    have hn : Value.jsonNat? UInt64.size (.integer n.toNat) = some n.toNat :=
      Value.jsonNat?_integer n.toNat_lt
    simp only [countToJson, Json.integer] at hn ⊢
    simp [countOfJson?, hn]

/-- What null and a schema in JSON stand for where a schema may be absent. -/
def optionOfJson? : Json → Option (Option Schema)
  | .null => some none
  | json => do
    let s ← ofJson? json
    return some s

theorem schemaMember?_eq (name : String) (members : List (String × Json)) :
    schemaMember? name members = (Table.get? members name).bind ofJson? := by
  induction members with
  | nil => rfl
  | cons member rest ih =>
    obtain ⟨key, json⟩ := member
    by_cases hk : key = name
    · simp [schemaMember?, hk]
    · simp [schemaMember?, hk, ih]

theorem optionMember?_eq (name : String) (members : List (String × Json)) :
    optionMember? name members = ((Table.get? members name).map optionOfJson?).getD (some none) := by
  induction members with
  | nil => rfl
  | cons member rest ih =>
    obtain ⟨key, json⟩ := member
    by_cases hk : key = name
    · cases json <;> simp [optionMember?, optionOfJson?, hk]
    · cases json <;> simp [optionMember?, hk, ih]

theorem branchesMember?_eq (members : List (String × Json)) :
    branchesMember? members = match Table.get? members "fields" with
      | some (.array items) => branchesOfJson? items
      | _ => none := by
  induction members with
  | nil => rfl
  | cons member rest ih =>
    obtain ⟨key, json⟩ := member
    by_cases hk : key = "fields"
    · cases json <;> simp [branchesMember?, hk]
    · cases json <;> simp [branchesMember?, hk, ih]

theorem optionOfJson?_toJson (s : Schema) : optionOfJson? s.toJson = do
      let s ← ofJson? s.toJson
      return some s := by
  cases s <;> rfl

mutual

theorem ofJson?_toJson (s : Schema) (h : s.hasFloatConstant = false) :
    ofJson? s.toJson = some s := by
  cases s with
  | ref name => rfl
  | primitive p => simp [toJson, ofJson?, Primitive.ofName?_name]
  | text countType =>
    have hcount := ofJson?_toJson countType h
    simp [toJson, ofJson?, schemaMember?_eq, hcount]
  | buffer count countType =>
    have hcount := optionOfJson?_optionToJson countType h
    simp [toJson, ofJson?, optionMember?_eq, countOf?, hcount]
  | option inner =>
    have hinner := ofJson?_toJson inner h
    simp [toJson, ofJson?, hinner]
  | array element count countType =>
    obtain ⟨he, hc⟩ := Bool.or_eq_false_iff.1 h
    have helement := ofJson?_toJson element he
    have hcount := optionOfJson?_optionToJson countType hc
    simp [toJson, ofJson?, schemaMember?_eq, optionMember?_eq, countOf?, helement, hcount]
  | container fields =>
    have hfields := fieldsOfJson?_fieldsToJson fields h
    simp [toJson, ofJson?, hfields]
  | switch on branches default =>
    obtain ⟨ho, hparts⟩ := Bool.or_eq_false_iff.1 h
    obtain ⟨hb, hd⟩ := Bool.or_eq_false_iff.1 hparts
    have hon := on.ofJson?_toJson ho
    have hbranches := branchesOfJson?_branchesToJson branches hb
    have hdefault := optionOfJson?_optionToJson default hd
    simp [toJson, ofJson?, branchesMember?_eq, optionMember?_eq, hon, hbranches, hdefault]

theorem optionOfJson?_optionToJson (part : Option Schema)
    (h : optionHasFloatConstant part = false) : optionOfJson? (optionToJson part) = some part := by
  cases part with
  | none => rfl
  | some s =>
    have hs := ofJson?_toJson s h
    simp [optionToJson, optionOfJson?_toJson, hs]

theorem fieldsOfJson?_fieldsToJson (fields : List (Field Schema))
    (h : fieldsHaveFloatConstant fields = false) :
    fieldsOfJson? (fieldsToJson fields) = some fields := by
  cases fields with
  | nil => rfl
  | cons field rest =>
    obtain ⟨name, type, anonymous⟩ := field
    obtain ⟨ht, hr⟩ := Bool.or_eq_false_iff.1 h
    have htype := ofJson?_toJson type ht
    have hrest := fieldsOfJson?_fieldsToJson rest hr
    simp [fieldsToJson, fieldsOfJson?, schemaMember?_eq, nameOf?, anonymousOf?, htype, hrest]

theorem branchesOfJson?_branchesToJson (branches : List (String × Schema))
    (h : branchesHaveFloatConstant branches = false) :
    branchesOfJson? (branchesToJson branches) = some branches := by
  cases branches with
  | nil => rfl
  | cons branch rest =>
    obtain ⟨key, s⟩ := branch
    obtain ⟨hb, hr⟩ := Bool.or_eq_false_iff.1 h
    have hbranch := ofJson?_toJson s hb
    have hrest := branchesOfJson?_branchesToJson rest hr
    simp [branchesToJson, branchesOfJson?, hbranch, hrest]

end

/-- The very same schema, and the very same value, is read back from its JSON form, unless a float stands in
a constant of the schema or in the value. -/
theorem recovered_from_json :
    (∀ s : Schema, s.hasFloatConstant = false → Schema.ofJson? s.toJson = some s) ∧
      ∀ v : Value, v.hasFloat = false → Value.ofJson? v.toJson = some v :=
  ⟨ofJson?_toJson, Value.ofJson?_toJson⟩

/-- A list of readings behind its length, each signed or not as a constant and the kind of the list say. -/
def readings : Schema :=
  .container
    [⟨"kind", .primitive .u8, false⟩,
      ⟨"", .container [⟨"note", .option (.text (.ref "length")), false⟩,
        ⟨"raw", .buffer (some 18446744073709551615) none, false⟩], true⟩,
      ⟨"list", .array
        (.switch (.constant (.record [("sign", .int (-1)), ("sign", .uint 1)]))
          [("1", .primitive .i64), ("1", .primitive .u64)]
          (some (.switch (.field "../kind") [] none)))
        none (some (.primitive .varint)), false⟩]

theorem readings_recovered_from_json :
    readings.hasFloatConstant = false ∧ Schema.ofJson? readings.toJson = some readings ∧
      (Value.record [("n", .int 5), ("n", .uint 5), ("n", .bytes [0, 255])]).hasFloat = false ∧
      Value.ofJson? (Value.record [("n", .int 5), ("n", .uint 5), ("n", .bytes [0, 255])]).toJson =
        some (.record [("n", .int 5), ("n", .uint 5), ("n", .bytes [0, 255])]) := by
  have hschema : readings.hasFloatConstant = false := by decide
  have hvalue : (Value.record [("n", .int 5), ("n", .uint 5),
      ("n", .bytes [0, 255])]).hasFloat = false := by decide
  exact ⟨hschema, recovered_from_json.1 _ hschema, hvalue, recovered_from_json.2 _ hvalue⟩

-- An infinite float has no number, so that its form is not read.
example : Value.ofJson? (Value.float ⟨0x7FF0000000000000⟩).toJson = none := by rfl

end Schema

end PacketCodec
