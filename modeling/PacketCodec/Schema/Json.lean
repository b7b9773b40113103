import PacketCodec.Schema.Basic
import PacketCodec.Value.Json

/-!
# Schemas as JSON

A schema is an object with one member, whose name is the shape. What may be absent is written as
null and read from null or nothing; the name of a member and its anonymity have defaults. Members of no
meaning are passed over. A buffer, an array, a switch and a member of a container are also read from
the list of their parts in order, where only parts at the end may be missing.
-/

namespace PacketCodec

namespace Discriminant

def toJson : Discriminant → Json
  | .field path => .object [("field", .string path)]
  | .constant value => .object [("value", value.toJson)]

def ofJson? : Json → Option Discriminant
  | .object [("field", .string path)] => some (.field path)
  | .object [("value", content)] => (Value.ofJson? content).map .constant
  | _ => none

end Discriminant

namespace Schema

def countToJson : Option UInt64 → Json
  | some n => .integer n.toNat
  | none => .null

def countOfJson? : Json → Option (Option UInt64)
  | .null => some none
  | json => (Value.jsonNat? UInt64.size json).map fun n => some (UInt64.ofNat n)

mutual

def toJson : Schema → Json
  | .ref name => .object [("ref", .string name)]
  | .primitive p => .object [("primitive", .string p.name)]
  | .text countType => .object [("p_string", .object [("count_type", toJson countType)])]
  | .buffer count countType =>
    .object [("buffer", .object
      [("count", countToJson count), ("count_type", optionToJson countType)])]
  | .option inner => .object [("option", toJson inner)]
  | .array element count countType =>
    .object [("array", .object
      [("element", toJson element), ("count", countToJson count),
        ("count_type", optionToJson countType)])]
  | .container fields => .object [("container", .array (fieldsToJson fields))]
  | .switch on branches default =>
    .object [("switch", .object
      [("compare_to", on.toJson), ("fields", .array (branchesToJson branches)),
        ("default", optionToJson default)])]

def optionToJson : Option Schema → Json
  | none => .null
  | some s => toJson s

def fieldsToJson : List (Field Schema) → List Json
  | [] => []
  | ⟨name, type, anonymous⟩ :: rest =>
    .object [("name", .string name), ("type", toJson type), ("anonymous", .bool anonymous)] ::
      fieldsToJson rest

def branchesToJson : List (String × Schema) → List Json
  | [] => []
  | (key, s) :: rest => .array [.string key, toJson s] :: branchesToJson rest

end

def countOf? : Option Json → Option (Option UInt64)
  | some json => countOfJson? json
  | none => some none

/-- The name of a part that may be missing, empty by default. -/
def nameOf? : Option Json → Option String
  | some (.string name) => some name
  | some _ => none
  | none => some ""

/-- The anonymity of a part that may be missing, false by default. -/
def anonymousOf? : Option Json → Option Bool
  | some (.bool anonymous) => some anonymous
  | some _ => none
  | none => some false

mutual

def ofJson? : Json → Option Schema
  | .object [(shape, content)] =>
    match shape, content with
    | "ref", .string name => some (.ref name)
    | "primitive", .string name => (Primitive.ofName? name).map .primitive
    | "primitive", .object [(name, .null)] => (Primitive.ofName? name).map .primitive
    | "p_string", .object members => do
      let countType ← schemaMember? "count_type" members
      return .text countType
    | "buffer", .object members => do
      let count ← countOf? (Table.get? members "count")
      let countType ← optionMember? "count_type" members
      return .buffer count countType
    | "buffer", .array items => do
      let count ← countOf? items[0]?
      let countType ← optionItem? 1 items
      if items.length ≤ 2 then return .buffer count countType else none
    | "option", inner => do
      let inner ← ofJson? inner
      return .option inner
    | "array", .object members => do
      let element ← schemaMember? "element" members
      let count ← countOf? (Table.get? members "count")
      let countType ← optionMember? "count_type" members
      return .array element count countType
    | "array", .array items => do
      let element ← schemaItem? 0 items
      let count ← countOf? items[1]?
      let countType ← optionItem? 2 items
      if items.length ≤ 3 then return .array element count countType else none
    | "container", .array items => do
      let fields ← fieldsOfJson? items
      return .container fields
    | "switch", .object members => do
      let on ← (Table.get? members "compare_to").bind Discriminant.ofJson?
      let branches ← branchesMember? members
      let default ← optionMember? "default" members
      return .switch on branches default
    | "switch", .array items => do
      let on ← items[0]?.bind Discriminant.ofJson?
      let branches ← branchesItem? 1 items
      let default ← optionItem? 2 items
      if items.length ≤ 3 then return .switch on branches default else none
    | _, _ => none
  | _ => none

def schemaMember? (name : String) : List (String × Json) → Option Schema
  | [] => none
  | (key, json) :: rest => if key = name then ofJson? json else schemaMember? name rest

def schemaItem? : Nat → List Json → Option Schema
  | _, [] => none
  | 0, json :: _ => ofJson? json
  | n + 1, _ :: rest => schemaItem? n rest

def optionMember? (name : String) : List (String × Json) → Option (Option Schema)
  | [] => some none
  | (key, json) :: rest =>
    if key = name then
      match json with
      | .null => some none
      | json => do
        let s ← ofJson? json
        return some s
    else optionMember? name rest

def optionItem? : Nat → List Json → Option (Option Schema)
  | _, [] => some none
  | 0, json :: _ =>
    match json with
    | .null => some none
    | json => do
      let s ← ofJson? json
      return some s
  | n + 1, _ :: rest => optionItem? n rest

def branchesMember? : List (String × Json) → Option (List (String × Schema))
  | [] => none
  | (key, json) :: rest =>
    if key = "fields" then
      match json with
      | .array items => branchesOfJson? items
      | _ => none
    else branchesMember? rest

def branchesItem? : Nat → List Json → Option (List (String × Schema))
  | _, [] => none
  | 0, json :: _ =>
    match json with
    | .array items => branchesOfJson? items
    | _ => none
  | n + 1, _ :: rest => branchesItem? n rest

def branchesOfJson? : List Json → Option (List (String × Schema))
  | [] => some []
  | .array [.string key, json] :: rest => do
    let s ← ofJson? json
    let branches ← branchesOfJson? rest
    return (key, s) :: branches
  | _ => none

def fieldsOfJson? : List Json → Option (List (Field Schema))
  | [] => some []
  | .object members :: rest => do
    let name ← nameOf? (Table.get? members "name")
    let type ← schemaMember? "type" members
    let anonymous ← anonymousOf? (Table.get? members "anonymous")
    let fields ← fieldsOfJson? rest
    return ⟨name, type, anonymous⟩ :: fields
  | .array items :: rest => do
    let name ← nameOf? items[0]?
    let type ← schemaItem? 1 items
    let anonymous ← anonymousOf? items[2]?
    let fields ← fieldsOfJson? rest
    if items.length ≤ 3 then return ⟨name, type, anonymous⟩ :: fields else none
  | _ => none

end

def membersOfJson? : Json → Option (List (Field Schema))
  | .array items => fieldsOfJson? items
  | _ => none

end Schema

end PacketCodec
