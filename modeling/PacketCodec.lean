import PacketCodec.Binary.Double
import PacketCodec.Binary.Format
import PacketCodec.Bytes
import PacketCodec.Codec.Basic
import PacketCodec.Codec.Decode
import PacketCodec.Codec.Emission
import PacketCodec.Codec.Encode
import PacketCodec.Codec.Measure
import PacketCodec.Codec.Scalar
import PacketCodec.Codec.Varint
import PacketCodec.Compile.BranchKey
import PacketCodec.Compile.Session
import PacketCodec.Decimal.Shortest
import PacketCodec.Error
import PacketCodec.Event
import PacketCodec.Framing.Consumer
import PacketCodec.Framing.ObservedParser
import PacketCodec.Framing.Parser
import PacketCodec.Framing.Serializer
import PacketCodec.Framing.WholePacketParser
import PacketCodec.Json.Basic
import PacketCodec.Json.Printer
import PacketCodec.Json.Reader
import PacketCodec.PacketType
import PacketCodec.Proofs.Codec.Alongside
import PacketCodec.Proofs.Codec.Branches
import PacketCodec.Proofs.Codec.Canonical
import PacketCodec.Proofs.Codec.Closed
import PacketCodec.Proofs.Codec.Counts
import PacketCodec.Proofs.Codec.Decoded
import PacketCodec.Proofs.Codec.Echoes
import PacketCodec.Proofs.Codec.Emission
import PacketCodec.Proofs.Codec.EqualValues
import PacketCodec.Proofs.Codec.ErrorKinds
import PacketCodec.Proofs.Codec.Extension
import PacketCodec.Proofs.Codec.Failures
import PacketCodec.Proofs.Codec.Finality
import PacketCodec.Proofs.Codec.FixedSize
import PacketCodec.Proofs.Codec.Inversion
import PacketCodec.Proofs.Codec.Locality
import PacketCodec.Proofs.Codec.Measure
import PacketCodec.Proofs.Codec.Missing
import PacketCodec.Proofs.Codec.Parts
import PacketCodec.Proofs.Codec.Placement
import PacketCodec.Proofs.Codec.Positions
import PacketCodec.Proofs.Codec.Raising
import PacketCodec.Proofs.Codec.Recovery
import PacketCodec.Proofs.Codec.Reread
import PacketCodec.Proofs.Codec.ResolvedOnce
import PacketCodec.Proofs.Codec.RoundTrip
import PacketCodec.Proofs.Codec.Scalar
import PacketCodec.Proofs.Codec.ShortestGroups
import PacketCodec.Proofs.Codec.Varint
import PacketCodec.Proofs.Codec.Words
import PacketCodec.Proofs.Compile.Acceptance
import PacketCodec.Proofs.Compile.Becomes
import PacketCodec.Proofs.Compile.Compiled
import PacketCodec.Proofs.Compile.CompiledOnce
import PacketCodec.Proofs.Compile.DistinctKeys
import PacketCodec.Proofs.Compile.Induction
import PacketCodec.Proofs.Compile.Keeps
import PacketCodec.Proofs.Compile.Layer
import PacketCodec.Proofs.Compile.PassedOn
import PacketCodec.Proofs.Compile.Selection
import PacketCodec.Proofs.Compile.Shapes
import PacketCodec.Proofs.Compile.Stack
import PacketCodec.Proofs.Compile.Transparency
import PacketCodec.Proofs.Compile.Transposition
import PacketCodec.Proofs.Except
import PacketCodec.Proofs.Framing.Appending
import PacketCodec.Proofs.Framing.Calls
import PacketCodec.Proofs.Framing.Chunking
import PacketCodec.Proofs.Framing.Conservation
import PacketCodec.Proofs.Framing.Discards
import PacketCodec.Proofs.Framing.Draining
import PacketCodec.Proofs.Framing.Failures
import PacketCodec.Proofs.Framing.Frames
import PacketCodec.Proofs.Framing.Limits
import PacketCodec.Proofs.Framing.Observation
import PacketCodec.Proofs.Lookup
import PacketCodec.Proofs.Schema.Inlining
import PacketCodec.Proofs.Schema.Json
import PacketCodec.Proofs.Schema.NormalForm
import PacketCodec.Proofs.Scope
import PacketCodec.Proofs.Stream.Contents
import PacketCodec.Proofs.Stream.Deliveries
import PacketCodec.Proofs.Stream.Endings
import PacketCodec.Proofs.Stream.RoundTrip
import PacketCodec.Proofs.Table
import PacketCodec.Proofs.Value.Equality
import PacketCodec.Proofs.Value.Json
import PacketCodec.Proofs.Value.Normal
import PacketCodec.Schema.Basic
import PacketCodec.Schema.Inline
import PacketCodec.Schema.Json
import PacketCodec.Schema.Primitive
import PacketCodec.Scope
import PacketCodec.Stream.PacketReader
import PacketCodec.Stream.PacketWriter
import PacketCodec.Stream.Sink
import PacketCodec.Stream.Source
import PacketCodec.Table
import PacketCodec.Text.Quoted
import PacketCodec.Text.Unprintable
import PacketCodec.Text.Utf8
import PacketCodec.Value.Basic
import PacketCodec.Value.Json
