import PacketCodec.Framing.Consumer

/-!
# Observed parsing

An observer sees every packet just before the consumer does and changes nothing.
-/

namespace PacketCodec

structure ObservedParser (π ω : Type) where
  inner : π
  observe : Packet → ω → ω
  observer : ω

namespace ObservedParser

/-- A step of the inner parser, each packet shown to the observer first. -/
def transform {π ω σ : Type} [ChunkParser π] (p : ObservedParser π ω) (chunk : Bytes)
    (consumer : Consumer σ) (state : σ) : Step (ObservedParser π ω) σ :=
  let both : Consumer (σ × ω) := fun packet (state, observer) =>
    let (outcome, state) := consumer packet state
    (outcome, state, p.observe packet observer)
  let step := ChunkParser.transform p.inner chunk both (state, p.observer)
  { parser := { p with inner := step.parser, observer := step.consumer.2 }
    consumer := step.consumer.1
    outcome := step.outcome
    events := step.events }

instance {π ω : Type} [ChunkParser π] : ChunkParser (ObservedParser π ω) where
  transform := transform
  buffered p := ChunkParser.buffered p.inner

end ObservedParser

end PacketCodec
