import PacketCodec.Error

/-!
# Events

What the library reports while it works, apart from its results.
-/

namespace PacketCodec

inductive Level where
  | trace
  | debug
  | warn
  deriving DecidableEq, Repr

def Level.name : Level → String
  | .trace => "TRACE"
  | .debug => "DEBUG"
  | .warn => "WARN"

inductive Event where
  | compilingType (name : String)
  /-- A parser took a packet of `size` bytes and holds `buffered` bytes more. -/
  | packetDecoded (size buffered : Nat)
  | bytesDropped (count : Nat) (cause : Error)
  /-- A chunk and the packet decoded from it differ in length. -/
  | sizeMismatch (chunk : Bytes) (read : Nat) (data : Value)

namespace Event

def level : Event → Level
  | .compilingType _ => .debug
  | .packetDecoded _ _ => .trace
  | .bytesDropped _ _ => .debug
  | .sizeMismatch _ _ _ => .warn

def message : Event → String
  | .compilingType _ => "compiling type"
  | .packetDecoded _ _ => "packet decoded"
  | .bytesDropped _ _ => "decode failed, dropping buffered bytes"
  | .sizeMismatch _ _ _ => "chunk size does not match packet size; partial packet"

end Event

end PacketCodec
