import PacketCodec.Json.Basic
import PacketCodec.Value.Basic

/-!
# Values as JSON

Each kind of value has a JSON form of its own, which names the kind; integers keep their signedness
and records keep repeated names. A float is a number if it is finite. The one part of a record is read
from a member of that name or from a list of one item.
-/

namespace PacketCodec.Value

def floatToJson (x : Double) : Json :=
  match JsonNumber.ofDouble? x with
  | some n => .number n
  | none => .null

mutual

def toJson : Value → Json
  | .null => .string "Null"
  | .bool b => .object [("Bool", .bool b)]
  | .int i => .object [("Int", .integer i.toInt)]
  | .uint u => .object [("UInt", .integer u.toNat)]
  | .float x => .object [("Float", floatToJson x)]
  | .string s => .object [("String", .string s)]
  | .bytes bs => .object [("Bytes", .array (bs.map fun b => .integer b.toNat))]
  | .array items => .object [("Array", .array (itemsToJson items))]
  | .record fields => .object [("Record", .object [("fields", .array (fieldsToJson fields))])]

def itemsToJson : List Value → List Json
  | [] => []
  | item :: rest => toJson item :: itemsToJson rest

def fieldsToJson : List (String × Value) → List Json
  | [] => []
  | (name, value) :: rest => .array [.string name, toJson value] :: fieldsToJson rest

end

def jsonNat? (bound : Nat) : Json → Option Nat
  | .number (.integer i) => if 0 ≤ i ∧ i < bound then some i.toNat else none
  | _ => none

def bytesOfJson? : List Json → Option Bytes
  | [] => some []
  | item :: rest => do
    let n ← jsonNat? 256 item
    let bs ← bytesOfJson? rest
    return UInt8.ofNat n :: bs

/-- The value of the JSON form of a kind without parts: the content after the name of the kind. -/
def leafOfJson? (kind : String) (content : Json) : Option Value :=
  match kind, content with
  | "Null", .null => some .null
  | "Bool", .bool b => some (.bool b)
  | "Int", .number (.integer i) => ofInt? i
  | "UInt", .number (.integer i) => if 0 ≤ i then ofNat? i.toNat else none
  | "Float", .number n => n.toDouble?.map .float
  | "String", .string s => some (.string s)
  | "Bytes", .array items => (bytesOfJson? items).map .bytes
  | _, _ => none

mutual

def ofJson? : Json → Option Value
  | .string "Null" => some .null
  | .object [(kind, content)] =>
    match kind, content with
    | "Array", .array items => do
      let items ← itemsOfJson? items
      return .array items
    | "Record", .object members => do
      let fields ← recordOfJson? members
      return .record fields
    | "Record", .array [.array pairs] => do
      let fields ← fieldsOfJson? pairs
      return .record fields
    | kind, content => leafOfJson? kind content
  | _ => none

def itemsOfJson? : List Json → Option (List Value)
  | [] => some []
  | item :: rest => do
    let value ← ofJson? item
    let values ← itemsOfJson? rest
    return value :: values

/-- The fields of a record: its member of that name, whatever else it has. -/
def recordOfJson? : List (String × Json) → Option (List (String × Value))
  | [] => none
  | (name, json) :: rest =>
    if name = "fields" then
      match json with
      | .array pairs => fieldsOfJson? pairs
      | _ => none
    else recordOfJson? rest

def fieldsOfJson? : List Json → Option (List (String × Value))
  | [] => some []
  | .array [.string name, item] :: rest => do
    let value ← ofJson? item
    let fields ← fieldsOfJson? rest
    return (name, value) :: fields
  | _ => none

end

end PacketCodec.Value
