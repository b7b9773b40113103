import PacketCodec.Framing.Consumer

/-!
# Incremental parsing

Chunks of any size go in, whole packets come out. Bytes accumulate until a packet decodes. Missing
bytes mean waiting, up to the limit; any other error drops everything accumulated.
-/

namespace PacketCodec

structure Parser where
  packetType : PacketType
  /-- The largest number of bytes to hold for an incomplete packet. -/
  limit : Option Nat := none
  pending : Bytes := []

structure Pull where
  parser : Parser
  outcome : Except Error (Option Packet)
  events : List Event

namespace Parser

def feed (p : Parser) (chunk : Bytes) : Parser :=
  { p with pending := p.pending ++ chunk }

def clear (p : Parser) : Parser :=
  { p with pending := [] }

def discard (p : Parser) (cause : Error) : Pull :=
  { parser := p.clear
    outcome := .error (.discarded p.pending cause)
    events := [.bytesDropped p.pending.length cause] }

/-- Whether an incomplete packet holds more bytes than the limit allows. -/
def overflow? (p : Parser) : Option Error :=
  match p.limit with
  | some limit =>
    if limit < p.pending.length then some (.bufferOverflow p.pending.length limit) else none
  | none => none

def next (p : Parser) : Pull :=
  if p.pending.isEmpty then ⟨p, .ok none, []⟩
  else
    match p.packetType.decode p.pending with
    | .ok packet =>
      if packet.size = 0 then p.discard (.decode (.here .emptyPacket))
      else
        let rest := p.pending.drop packet.size
        { parser := { p with pending := rest }
          outcome := .ok (some packet)
          events := [.packetDecoded packet.size rest.length] }
    | .error (.incomplete _ _) =>
      match p.overflow? with
      | some e => p.discard e
      | none => ⟨p, .ok none, []⟩
    | .error (.invalid e) => p.discard (.decode e)

theorem length_pending_next_lt {p : Parser} {packet : Packet}
    (h : p.next.outcome = .ok (some packet)) :
    p.next.parser.pending.length < p.pending.length := by
  unfold next at h ⊢
  by_cases he : p.pending.isEmpty
  · simp [he] at h
  · simp only [he] at h ⊢
    cases hd : p.packetType.decode p.pending with
    | error e =>
      cases e with
      | incomplete needed available =>
        simp only [hd] at h
        cases ho : p.overflow? <;> simp [ho, discard] at h
      | invalid e => simp [hd, discard] at h
    | ok decoded =>
      simp only [hd] at h ⊢
      by_cases hz : decoded.size = 0
      · simp [hz, discard] at h
      · simp only [hz]
        have : p.pending ≠ [] := by simpa using he
        have := List.length_pos_iff.2 this
        simp
        omega

/-- Hands over packets until no whole one is left, or until an error. -/
def drain {σ : Type} (p : Parser) (consumer : Consumer σ) (state : σ) : Step Parser σ :=
  match _h : p.next.outcome with
  | .error e => ⟨p.next.parser, state, .error e, p.next.events⟩
  | .ok none => ⟨p.next.parser, state, .ok (), p.next.events⟩
  | .ok (some packet) =>
    match consumer packet state with
    | (.error e, state) => ⟨p.next.parser, state, .error e, p.next.events⟩
    | (.ok (), state) =>
      let step := drain p.next.parser consumer state
      { step with events := p.next.events ++ step.events }
termination_by p.pending.length
decreasing_by exact length_pending_next_lt _h

/-- Takes in a chunk and hands over every packet that is complete by then. -/
def transform {σ : Type} (p : Parser) (chunk : Bytes) (consumer : Consumer σ) (state : σ) :
    Step Parser σ :=
  (p.feed chunk).drain consumer state

instance : ChunkParser Parser where
  transform := transform
  buffered p := p.pending.length

end Parser

end PacketCodec
