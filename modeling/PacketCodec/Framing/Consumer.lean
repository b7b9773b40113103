import PacketCodec.Event
import PacketCodec.PacketType

/-!
# Packet consumers and chunk parsers

A chunk parser turns chunks of bytes into packets and hands each to a consumer as soon as it is
complete. A consumer keeps a state of its own and may stop the step by an error.
-/

namespace PacketCodec

/-- What a consumer does with a packet. -/
abbrev Consumer (σ : Type) := Packet → σ → Except Error Unit × σ

structure Step (π σ : Type) where
  parser : π
  consumer : σ
  outcome : Except Error Unit
  events : List Event

/-- A way of turning chunks into packets. -/
class ChunkParser (π : Type) where
  /-- Takes in a chunk and hands over every packet that it completes, in order. -/
  transform : {σ : Type} → π → Bytes → Consumer σ → σ → Step π σ
  /-- The number of bytes held back for a packet that is not complete. -/
  buffered : π → Nat

def collect : Consumer (List Packet) := fun packet packets => (.ok (), packets ++ [packet])

end PacketCodec
