import PacketCodec.Proofs.Framing.Chunking

/-!
# Draining

A request for a packet ends in one of three ways: the parser waits, it discards what it holds, or it takes a packet
from the front. Draining is such requests in a row, up to the first that brings no packet or to a packet that the
consumer refuses. There are finitely many of them, since each packet takes bytes away; so a fact about
draining is proved by induction on the requests.
-/

namespace PacketCodec

theorem PacketType.size_le_of_decode {t : PacketType} {bytes : Bytes} {packet : Packet}
    (h : t.decode bytes = .ok packet) : packet.size ≤ bytes.length := by
  obtain ⟨d, hd, h⟩ := Except.bind_eq_ok.1 h
  cases h
  rcases Codec.covers_of_decode hd with hz | hle
  · exact Nat.le_trans (Nat.le_of_eq hz) (Nat.zero_le _)
  · rwa [Nat.zero_add] at hle

/-- Whether a consumer accepts all of some packets, one after the other. -/
def Consumer.accepts {σ : Type} (consumer : Consumer σ) : List Packet → σ → Bool
  | [], _ => true
  | packet :: rest, state =>
    match consumer packet state with
    | (.ok (), state) => consumer.accepts rest state
    | (.error _, _) => false

namespace Parser

open PacketType

variable {σ : Type} {p p' : Parser} {packets : List Packet}

/-- The parser with a packet of some size taken from the front. -/
def drop (p : Parser) (size : Nat) : Parser :=
  { p with pending := p.pending.drop size }

theorem next_of_decode {packet : Packet} (hd : p.packetType.decode p.pending = .ok packet)
    (hz : packet.size ≠ 0) :
    p.next.outcome = .ok (some packet) ∧ p.next.parser = p.drop packet.size := by
  have hempty : p.pending.isEmpty = false := by
    have hsize := size_le_of_decode hd
    rw [List.isEmpty_eq_false_iff, ← List.length_pos_iff]
    omega
  simp [next, hempty, hd, hz, drop]

/-- Waits for more bytes, unless there are more than the limit allows. -/
def await (p : Parser) : Pull :=
  match p.overflow? with
  | some e => p.discard e
  | none => ⟨p, .ok none, []⟩

/-- What the bytes alone decide about asking for a packet, whatever the limit. -/
inductive Judged (t : PacketType) (pending : Bytes) : Prop
  | whole (packet : Packet) (hd : t.decode pending = .ok packet) (hz : packet.size ≠ 0)
  | faulty (cause : Error)
      (h : ∀ limit, (Parser.mk t limit pending).next = (Parser.mk t limit pending).discard cause)
  | lacking (h : ∀ limit, (Parser.mk t limit pending).next = (Parser.mk t limit pending).await)

theorem judged (t : PacketType) (pending : Bytes) : Judged t pending := by
  by_cases hempty : pending = []
  · refine .lacking fun limit => ?_
    cases limit <;> simp [next, await, overflow?, hempty]
  have hsome : pending.isEmpty = false := List.isEmpty_eq_false_iff.2 hempty
  cases hd : t.decode pending with
  | ok packet =>
    by_cases hz : packet.size = 0
    · exact .faulty (.decode (.here .emptyPacket)) fun limit => by simp [next, hsome, hd, hz]
    · exact .whole packet hd hz
  | error e =>
    cases e with
    | invalid e => exact .faulty (.decode e) fun limit => by simp [next, hsome, hd]
    | incomplete needed available =>
      exact .lacking fun limit => by simp only [next, await, hsome, hd]; rfl

/-- What asking for a packet comes to: waiting, dropping everything, or taking a packet from the front. -/
inductive Asked (p : Parser) : Prop
  | waits (h : p.next = ⟨p, .ok none, []⟩)
  | discards (cause : Error) (h : p.next = p.discard cause)
  | takes (packet : Packet) (hd : p.packetType.decode p.pending = .ok packet)
      (hz : packet.size ≠ 0)

theorem asked (p : Parser) : p.Asked := by
  cases judged p.packetType p.pending with
  | whole packet hd hz => exact .takes packet hd hz
  | faulty cause h => exact .discards cause (h p.limit)
  | lacking h =>
    have hnext : p.next = p.await := h p.limit
    rw [await] at hnext
    cases ho : p.overflow? with
    | some e => exact .discards e (by rw [hnext, ho])
    | none => exact .waits (by rw [hnext, ho])

/-- A consumer that notes, besides what it does, which packets it is handed. -/
def noting (consumer : Consumer σ) : Consumer (σ × List Packet) := fun packet (state, seen) =>
  let (outcome, state) := consumer packet state
  (outcome, state, seen ++ [packet])

/-- How draining goes: which packets are handed over, one for each request that brings one, and what the parser,
the consumer's state and the outcome are in the end. -/
inductive Drains (consumer : Consumer σ) :
    Parser → σ → List Packet → Parser → σ → Except Error Unit → Prop
  | waits {p : Parser} {state : σ} (h : p.next = ⟨p, .ok none, []⟩) :
      Drains consumer p state [] p state (.ok ())
  | discards {p : Parser} {state : σ} (cause : Error) (h : p.next = p.discard cause) :
      Drains consumer p state [] p.clear state (.error (.discarded p.pending cause))
  | refused {p : Parser} {state state' : σ} {packet : Packet} {e : Error}
      (hd : p.packetType.decode p.pending = .ok packet) (hz : packet.size ≠ 0)
      (hc : consumer packet state = (.error e, state')) :
      Drains consumer p state [packet] (p.drop packet.size) state' (.error e)
  | takes {p p' : Parser} {state state' state'' : σ} {packet : Packet} {packets : List Packet}
      {outcome : Except Error Unit} (hd : p.packetType.decode p.pending = .ok packet)
      (hz : packet.size ≠ 0) (hc : consumer packet state = (.ok (), state'))
      (rest : Drains consumer (p.drop packet.size) state' packets p' state'' outcome) :
      Drains consumer p state (packet :: packets) p' state'' outcome

section Drains

variable {consumer : Consumer σ} {state state' : σ} {outcome : Except Error Unit}

theorem result_drain_refused {packet : Packet} {e : Error}
    (h : p.next.outcome = .ok (some packet)) (hc : consumer packet state = (.error e, state')) :
    (p.drain consumer state).result = (p.next.parser, state', .error e) := by
  rw [drain]
  split
  · rename_i e he
    cases h.symm.trans he
  · rename_i hn
    cases h.symm.trans hn
  · rename_i packet' hp
    cases h.symm.trans hp
    simp only [hc]
    rfl

/-- Draining ends, from whatever a parser holds and with whatever consumer. -/
theorem exists_drains (consumer : Consumer σ) (p : Parser) (state : σ) :
    ∃ packets p' state' outcome, Drains consumer p state packets p' state' outcome := by
  -- A packet takes bytes, so the induction is on how many are left.
  induction hn : p.pending.length using Nat.strongRecOn generalizing p state with
  | _ n ih =>
    cases asked p with
    | waits h => exact ⟨[], p, state, .ok (), .waits h⟩
    | discards cause h => exact ⟨[], p.clear, state, _, .discards cause h⟩
    | takes packet hd hz =>
      cases hreply : consumer packet state with
      | mk reply state₁ =>
        cases reply with
        | error e => exact ⟨[packet], p.drop packet.size, state₁, .error e, .refused hd hz hreply⟩
        | ok _ =>
          obtain ⟨houtcome, hparser⟩ := next_of_decode hd hz
          have hlt := length_pending_next_lt houtcome
          rw [hparser] at hlt
          obtain ⟨packets, p', state', outcome, hrest⟩ := ih _ (hn ▸ hlt) (p.drop packet.size) state₁ rfl
          exact ⟨packet :: packets, p', state', outcome, .takes hd hz hreply hrest⟩

theorem Drains.result (h : Drains consumer p state packets p' state' outcome) :
    (p.drain consumer state).result = (p', state', outcome) := by
  induction h with
  | waits h => exact result_drain_nothing h _
  | discards cause h => exact result_drain_discard h _
  | refused hd hz hc =>
    obtain ⟨houtcome, hparser⟩ := next_of_decode hd hz
    rw [result_drain_refused houtcome hc, hparser]
  | takes hd hz hc _ ih =>
    obtain ⟨houtcome, hparser⟩ := next_of_decode hd hz
    rw [result_drain_packet houtcome hparser hc, ih]

theorem Drains.noting (h : Drains consumer p state packets p' state' outcome) (seen : List Packet) :
    Drains (noting consumer) p (state, seen) packets p' (state', seen ++ packets) outcome := by
  induction h generalizing seen with
  | waits h =>
    rw [List.append_nil]
    exact .waits h
  | discards cause h =>
    rw [List.append_nil]
    exact .discards cause h
  | refused hd hz hc => exact .refused hd hz (by simp only [Parser.noting, hc])
  | @takes p p' state state₁ state' packet packets outcome hd hz hc _ ih =>
    have hrest := ih (seen ++ [packet])
    rw [List.append_assoc, List.singleton_append] at hrest
    exact .takes hd hz (by simp only [Parser.noting, hc]) hrest

theorem Drains.eq_with_pending (h : Drains consumer p state packets p' state' outcome) :
    p' = { p with pending := p'.pending } := by
  induction h with
  | takes _ _ _ _ ih => exact ih
  | _ => rfl

theorem Drains.packetType_eq (h : Drains consumer p state packets p' state' outcome) :
    p'.packetType = p.packetType := by
  rw [h.eq_with_pending]

theorem Drains.limit_eq (h : Drains consumer p state packets p' state' outcome) : p'.limit = p.limit := by
  rw [h.eq_with_pending]

end Drains

end Parser

end PacketCodec
