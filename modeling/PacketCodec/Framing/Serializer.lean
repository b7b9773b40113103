import PacketCodec.PacketType

/-!
# Serializers

Turns values into byte chunks, all or nothing: a rejected value comes back in the error and leaves no
bytes behind.
-/

namespace PacketCodec

structure Serializer where
  packetType : PacketType

namespace Serializer

/-- Appends the encoding of a value to an output. The outcome is the number of bytes added. -/
def serializeInto (s : Serializer) (value : Value) (out : Bytes) : Bytes × Except Error Nat :=
  match s.packetType.appendTo value out with
  | .ok extended => (extended, .ok (extended.length - out.length))
  | .error e => (out, .error (.unserializable value (.encode e)))

def serialize (s : Serializer) (value : Value) : Except Error Bytes :=
  match s.serializeInto value [] with
  | (out, .ok _) => .ok out
  | (_, .error e) => .error e

end Serializer

end PacketCodec
