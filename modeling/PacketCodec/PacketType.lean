import PacketCodec.Codec.Decode
import PacketCodec.Codec.Measure
import PacketCodec.Compile.Session

/-!
# Packet types

What framing works with: a codec to read by, one to write by and one to measure by, usually the same.
Encoding measures the value, writes it into a destination of that size and refuses a result of any
other size.
-/

namespace PacketCodec

structure PacketType where
  reader : Codec
  writer : Codec
  sizer : Codec

structure Packet where
  data : Value
  size : Nat

namespace PacketType

/-- The packet type that uses one codec for everything. -/
def ofCodec (c : Codec) : PacketType := ⟨c, c, c⟩

def decode (t : PacketType) (buf : Bytes) : Except ReadError Packet := do
  let decoded ← t.reader.decode buf [] 0
  return ⟨decoded.value, decoded.size⟩

def measure (t : PacketType) (value : Value) : Except EncodeError Nat :=
  t.sizer.measure [] value

/-- Appends the encoding of a value to what is there; on an error nothing is appended. -/
def appendTo (t : PacketType) (value : Value) (out : Bytes) : Except EncodeError Bytes := do
  let size ← t.measure value
  let placed := t.writer.encode [] value (out ++ List.replicate size 0) out.length
  let stop ← placed.outcome
  if stop = out.length + size then return placed.dest
  else throw (.here (.sizeMismatch (stop - out.length) size))

def encode (t : PacketType) (value : Value) : Except EncodeError Bytes :=
  t.appendTo value []

/-- A summary that shows the size of every packet, if the type alone tells it. -/
def summary (t : PacketType) : String :=
  let fixed :=
    match t.sizer.fixedSize with
    | some n => "Some(" ++ toString n ++ ")"
    | none => "None"
  "CompiledType \x7b read: Decoder, write: Encoder, size_of: Sizer \x7b fixed: " ++ fixed ++
    " \x7d \x7d"

end PacketType

namespace Registry

/-- Compiles the three codecs of a packet type from three schemas. -/
def compilePacketType (reg : Registry) (reader writer sizer : Schema) : Compile PacketType := do
  let reader ← reg.compile reader
  let writer ← reg.compile writer
  let sizer ← reg.compile sizer
  return ⟨reader, writer, sizer⟩

end Registry

end PacketCodec
