import PacketCodec.Framing.Consumer

/-!
# Whole-packet parsing

Each chunk is one packet; nothing is kept from one chunk to the next. A packet that does not span its
chunk is handed over all the same, and the difference is reported.
-/

namespace PacketCodec

structure WholePacketParser where
  packetType : PacketType

namespace WholePacketParser

/-- The packet of a chunk, and what there is to report about it. -/
def parse (p : WholePacketParser) (chunk : Bytes) : Except Error Packet × List Event :=
  match p.packetType.decode chunk with
  | .ok packet =>
    if packet.size = chunk.length then (.ok packet, [])
    else (.ok packet, [.sizeMismatch chunk packet.size packet.data])
  | .error e => (.error (.ofRead e), [])

def transform {σ : Type} (p : WholePacketParser) (chunk : Bytes) (consumer : Consumer σ)
    (state : σ) : Step WholePacketParser σ :=
  match p.parse chunk with
  | (.error e, events) => ⟨p, state, .error e, events⟩
  | (.ok packet, events) =>
    let (outcome, state) := consumer packet state
    ⟨p, state, outcome, events⟩

instance : ChunkParser WholePacketParser where
  transform := transform
  buffered _ := 0

end WholePacketParser

end PacketCodec
