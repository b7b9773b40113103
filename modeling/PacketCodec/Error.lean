import PacketCodec.Text.Utf8
import PacketCodec.Value.Basic

/-!
# Errors

An error is its cause and the place where it arose; its wording is made in one function per cause.
Decoding distinguishes bytes that are still missing from bytes that are wrong.
-/

namespace PacketCodec

/-- A fault inside named parts, the outermost part first. -/
structure Located (α : Type) where
  path : List String
  fault : α
  deriving Repr

namespace Located

variable {α : Type}

def here (fault : α) : Located α := ⟨[], fault⟩

/-- A fault seen from outside the part of that name. -/
def within (name : String) (e : Located α) : Located α := ⟨name :: e.path, e.fault⟩

end Located

inductive SchemaFault where
  | lengthMissing (shape : String)
  | lengthAmbiguous (shape : String)
  | duplicateBranch (key : String)
  | nestedAnonymous
  | notInlinable (description : String)
  | duplicateField (name : String)
  | unknownType (name : String)
  /-- The named type refers to itself; `chain` is what was being compiled, outermost first. -/
  | recursiveType (chain : List String) (name : String)
  deriving Repr

def SchemaFault.message : SchemaFault → String
  | .lengthMissing shape => s!"{shape} must contain either count or count_type"
  | .lengthAmbiguous shape => s!"{shape} must not contain both count and count_type"
  | .duplicateBranch key => s!"duplicate switch branch: {key}"
  | .nestedAnonymous =>
    "nested anonymous fields are not supported (one inlining level only)"
  | .notInlinable description => s!"cannot inline anonymous type: {description}"
  | .duplicateField name => s!"duplicate field name after inlining: {name}"
  | .unknownType name => s!"unknown type: {name}"
  | .recursiveType chain name =>
    "recursive type reference: " ++ " -> ".intercalate chain ++ " -> " ++ name

abbrev SchemaError := Located SchemaFault

def SchemaError.message (e : SchemaError) : String :=
  String.join (e.path.map fun name => s!"in {name}: ") ++ e.fault.message

inductive DiscriminantFault where
  | missing (path : String)
  | unsuitable (kind : Value.Kind)
  deriving Repr

def DiscriminantFault.message : DiscriminantFault → String
  | .missing path => s!"switch discriminant `{path}` not found"
  | .unsuitable kind =>
    "switch discriminant must be an integer, bool or string, got " ++ kind.name

/-- What can be wrong with bytes, however many follow. -/
inductive DecodeFault where
  | lengthOverflow (length : Nat)
  | varintTooLong
  | invalidLength (value : Value)
  | invalidText (fault : Utf8.Fault)
  | zeroWidthItems (count remaining : Nat)
  | discriminant (fault : DiscriminantFault)
  | emptyPacket
  /-- A fault that a consumer of packets reports in its own words. -/
  | reported (text : String)

def DecodeFault.message : DecodeFault → String
  | .lengthOverflow length => s!"length {length} overflows the buffer offset"
  | .varintTooLong => "varint is longer than 5 bytes"
  | .invalidLength value => "invalid length prefix: " ++ value.render
  | .invalidText fault => "invalid utf-8 in string: " ++ fault.message
  | .zeroWidthItems count remaining =>
    s!"array of {count} zero-width elements exceeds the {remaining} bytes available"
  | .discriminant fault => fault.message
  | .emptyPacket => "packet consumed no bytes"
  | .reported text => text

abbrev DecodeError := Located DecodeFault

/-- Why a value does not have the shape that the schema asks for, or could not be placed. -/
inductive EncodeFault where
  | expectedNatural (type : String) (value : Value)
  | expectedInteger (type : String) (value : Value)
  | expectedNumber (type : String) (value : Value)
  | expectedBool (value : Value)
  | outOfRange (type : String) (number : Int)
  | expectedString (kind : Value.Kind)
  | expectedBytes (kind : Value.Kind)
  | expectedArray (kind : Value.Kind)
  | expectedRecord (kind : Value.Kind)
  | bufferLength (declared actual : Nat)
  | arrayLength (declared actual : Nat)
  /-- No count of 64 bits says how many items there are. -/
  | uncountable (length : Nat)
  | discriminant (fault : DiscriminantFault)
  | noRoom (needed available : Nat)
  | sizeMismatch (encoded measured : Nat)

def EncodeFault.message : EncodeFault → String
  | .expectedNatural type value =>
    s!"expected a non-negative integer for {type}, got " ++ value.kind.name ++ " " ++ value.render
  | .expectedInteger type value =>
    s!"expected an integer for {type}, got " ++ value.kind.name ++ " " ++ value.render
  | .expectedNumber type value =>
    s!"expected a number for {type}, got " ++ value.kind.name ++ " " ++ value.render
  | .expectedBool value => "expected a bool, got " ++ value.kind.name ++ " " ++ value.render
  | .outOfRange type number => s!"value {number} out of range for {type}"
  | .expectedString kind => "expected a string, got " ++ kind.name
  | .expectedBytes kind => "expected bytes, got " ++ kind.name
  | .expectedArray kind => "expected an array, got " ++ kind.name
  | .expectedRecord kind => "expected a record, got " ++ kind.name
  | .bufferLength declared actual => s!"buffer declares {declared} bytes, got {actual}"
  | .arrayLength declared actual => s!"array declares {declared} elements, got {actual}"
  | .uncountable length => s!"length {length} does not fit in 64 bits"
  | .discriminant fault => fault.message
  | .noRoom needed available => s!"destination too small: need {needed} bytes, have {available}"
  | .sizeMismatch encoded measured => s!"encoded {encoded} bytes but measured {measured}"

abbrev EncodeError := Located EncodeFault

/-- The wording of a fault inside fields: their names, outermost first, then the fault. -/
def fieldMessage (path : List String) (message : String) : String :=
  String.join (path.map fun name => name ++ ": ") ++ message

inductive ReadError where
  /-- The bytes end too early; none seen so far is wrong. -/
  | incomplete (needed available : Nat)
  | invalid (error : DecodeError)

namespace ReadError

def ofFault (fault : DecodeFault) : ReadError := .invalid (.here fault)

/-- The error seen from outside a field. Missing bytes are missing at every level. -/
def within (name : String) : ReadError → ReadError
  | .incomplete needed available => .incomplete needed available
  | .invalid e => .invalid (e.within name)

end ReadError

inductive IoFault where
  | failed (text : String)
  /-- The sink accepted no byte of what was left to write. -/
  | writeZero
  deriving DecidableEq, Repr

def IoFault.message : IoFault → String
  | .failed text => text
  | .writeZero => "failed to write whole buffer"

inductive Error where
  | io (fault : IoFault)
  | schema (error : SchemaError)
  | partialRead (needed available : Nat)
  | decode (error : DecodeError)
  | encode (error : EncodeError)
  /-- A parser dropped its accumulated bytes. -/
  | discarded (buffer : Bytes) (source : Error)
  /-- A serializer produced nothing for a value. -/
  | unserializable (packet : Value) (source : Error)
  | bufferOverflow (buffered limit : Nat)
  /-- A source ended inside a packet. -/
  | unexpectedEof (buffered : Nat)

namespace Error

def ofRead : ReadError → Error
  | .incomplete needed available => .partialRead needed available
  | .invalid e => .decode e

/-- Whether the failure only means that more bytes are needed. -/
def isPartialRead : Error → Bool
  | .partialRead _ _ => true
  | _ => false

def rootCause : Error → Error
  | .discarded _ source => source.rootCause
  | .unserializable _ source => source.rootCause
  | e => e

def message : Error → String
  | .io fault => "I/O error: " ++ fault.message
  | .schema e => "Schema error: " ++ e.message
  | .partialRead needed available =>
    s!"Partial read: needed {needed} bytes, {available} available"
  | .decode e => "Decode error: " ++ fieldMessage e.path e.fault.message
  | .encode e => "Encode error: " ++ fieldMessage e.path e.fault.message
  | .discarded buffer source =>
    "discarded " ++ toString buffer.length ++ " buffered bytes: " ++ source.message
  | .unserializable _ source => "packet could not be serialized: " ++ source.message
  | .bufferOverflow buffered limit =>
    s!"Buffered {buffered} bytes without a complete packet (limit {limit})"
  | .unexpectedEof buffered => s!"Unexpected end of stream with {buffered} bytes buffered"

end Error

end PacketCodec
