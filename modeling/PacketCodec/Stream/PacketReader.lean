import PacketCodec.Framing.Consumer
import PacketCodec.Stream.Source

/-!
# Reading packets from a source

A reader asks its source for a chunk only when everything decoded before has been handed out: first
the packets of a step, then the error that ended it. An interrupted read is repeated.
-/

namespace PacketCodec

structure PacketReader (π : Type) where
  source : Source
  parser : π
  /-- The number of bytes asked for at once; at least one is asked for in any case. -/
  chunkSize : Nat
  pending : List Packet := []
  /-- The error of the last step, to be handed out after its packets. -/
  heldError : Option Error := none

structure Delivery (π : Type) where
  reader : PacketReader π
  outcome : Except Error (Option Packet)
  events : List Event

/-- The item that a delivery adds to the sequence of a reader's items: none at the end. -/
def Delivery.item? {π : Type} (d : Delivery π) : Option (Except Error Packet) :=
  match d.outcome with
  | .ok (some packet) => some (.ok packet)
  | .ok none => none
  | .error e => some (.error e)

structure Processing (π σ : Type) where
  reader : PacketReader π
  consumer : σ
  outcome : Except Error Unit
  events : List Event

namespace PacketReader

/-- The number of bytes asked for at once where nothing else is said. -/
def defaultChunkSize : Nat := 8 * 1024

variable {π σ : Type} [ChunkParser π]

def room (r : PacketReader π) : Nat := max 1 r.chunkSize

omit [ChunkParser π] in
theorem room_pos (r : PacketReader π) : 0 < r.room :=
  Nat.lt_of_lt_of_le Nat.one_pos (Nat.le_max_left 1 r.chunkSize)

def buffered (r : PacketReader π) : Nat := ChunkParser.buffered r.parser

/-- What the end of the source means: nothing more, or the loss of an incomplete packet. -/
def atEnd (r : PacketReader π) : Except Error (Option Packet) :=
  if r.buffered = 0 then .ok none else .error (.unexpectedEof r.buffered)

/-- The reader after the parser has taken in a chunk, and what that reported. -/
def takeIn (r : PacketReader π) (source : Source) (chunk : Bytes) :
    PacketReader π × List Event :=
  let step := ChunkParser.transform r.parser chunk collect []
  let heldError :=
    match step.outcome with
    | .ok () => none
    | .error e => some e
  ({ r with source, parser := step.parser, pending := step.consumer, heldError }, step.events)

/-- Hands out the next packet, or the error that stands in its place. -/
def next (r : PacketReader π) : Delivery π :=
  match r.pending, r.heldError with
  | packet :: pending, _ => ⟨{ r with pending }, .ok (some packet), []⟩
  | [], some e => ⟨{ r with heldError := none }, .error e, []⟩
  | [], none =>
    match _h : r.source.read r.room with
    | (.interrupted, source) => next { r with source }
    | (.failed text, source) => ⟨{ r with source }, .error (.io (.failed text)), []⟩
    | (.data [], source) =>
      let r := { r with source }
      ⟨r, r.atEnd, []⟩
    | (.data (b :: bs), source) =>
      let taken := r.takeIn source (b :: bs)
      let delivery := next taken.1
      { delivery with events := taken.2 ++ delivery.events }
termination_by r.source.remaining
decreasing_by
  · exact Source.remaining_lt_of_interrupted _h
  · exact Source.remaining_lt_of_data _h

/-- A packet handed out leaves less to read, or as much to read and fewer packets waiting. -/
theorem next_decreases (r : PacketReader π) {packet : Packet}
    (h : r.next.outcome = .ok (some packet)) :
    r.next.reader.source.remaining < r.source.remaining ∨
      r.next.reader.source.remaining = r.source.remaining ∧
        r.next.reader.pending.length < r.pending.length := by
  fun_induction next r with
  | case1 r packet pending hp => exact .inr ⟨rfl, by simp [hp]⟩
  | case2 r e hp he => cases h
  | case3 r hp he source hs ih =>
    have := Source.remaining_lt_of_interrupted hs
    rcases ih h with hlt | ⟨heq, _⟩
    · exact .inl (Nat.lt_trans hlt this)
    · exact .inl (heq ▸ this)
  | case4 r hp he text source hs => cases h
  | case5 r hp he source hs r' =>
    simp only [atEnd] at h
    split at h <;> cases h
  | case6 r hp he b bs source hs taken delivery ih =>
    have hlt : taken.1.source.remaining < r.source.remaining := Source.remaining_lt_of_data hs
    rcases ih h with hd | ⟨heq, _⟩
    · exact .inl (Nat.lt_trans hd hlt)
    · exact .inl (heq ▸ hlt)

/-- Hands every packet to a consumer until the source ends, or until an error. -/
def processAll (r : PacketReader π) (consumer : Consumer σ) (state : σ) : Processing π σ :=
  match _h : r.next.outcome with
  | .error e => ⟨r.next.reader, state, .error e, r.next.events⟩
  | .ok none => ⟨r.next.reader, state, .ok (), r.next.events⟩
  | .ok (some packet) =>
    match consumer packet state with
    | (.error e, state) => ⟨r.next.reader, state, .error e, r.next.events⟩
    | (.ok (), state) =>
      let rest := processAll r.next.reader consumer state
      { rest with events := r.next.events ++ rest.events }
termination_by (r.source.remaining, r.pending.length)
decreasing_by
  rcases next_decreases r _h with h | ⟨h, h'⟩
  · exact Prod.Lex.left _ _ h
  · rw [h]
    exact Prod.Lex.right _ h'

end PacketReader

end PacketCodec
