import PacketCodec.Framing.Serializer
import PacketCodec.Stream.Sink

/-!
# Writing packets to a sink

Each value is encoded as a whole before any of it is written, so a rejected value writes nothing. A writer
may encode all values into one buffer, which it empties for each of them.
-/

namespace PacketCodec

structure PacketWriter where
  serializer : Serializer
  sink : Sink := {}

namespace PacketWriter

def write (w : PacketWriter) (value : Value) : PacketWriter × Except Error Unit :=
  match w.serializer.serialize value with
  | .error e => (w, .error e)
  | .ok bs =>
    let (sink, outcome) := w.sink.writeAll bs
    ({ w with sink }, outcome.mapError .io)

def flush (w : PacketWriter) : PacketWriter × Except Error Unit :=
  let (sink, outcome) := w.sink.flush
  ({ w with sink }, outcome.mapError .io)

end PacketWriter

/-- A writer and the buffer that holds what it encodes. -/
structure BufferedWriter where
  writer : PacketWriter
  buffer : Bytes := []

namespace BufferedWriter

/-- Empties the buffer, encodes a value into it and writes all that it holds then. -/
def write (w : BufferedWriter) (value : Value) : BufferedWriter × Except Error Unit :=
  let emptied := w.buffer.take 0
  match w.writer.serializer.serializeInto value emptied with
  | (buffer, .error e) => ({ w with buffer }, .error e)
  | (buffer, .ok _) =>
    let (sink, outcome) := w.writer.sink.writeAll buffer
    (⟨{ w.writer with sink }, buffer⟩, outcome.mapError .io)

end BufferedWriter

end PacketCodec
