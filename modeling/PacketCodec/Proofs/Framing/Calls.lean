import PacketCodec.Proofs.Codec.Finality
import PacketCodec.Proofs.Framing.Draining

/-!
# Calls on a parser

A parser is fed chunks, asked for packets one at a time, or taken through steps whose consumers may fail.
However these calls alternate, and whatever the limit, the packets that are delivered are the first ones of
the stream that has been given so far, and what is pending is the rest of that stream: until something is
discarded.
-/

namespace PacketCodec

/-- The number of bytes that packets have taken. -/
def Packet.totalSize : List Packet → Nat
  | [] => 0
  | packet :: rest => packet.size + totalSize rest

namespace PacketType

variable {t : PacketType} {packet : Packet} {packets packets' : List Packet}
  {bytes bytes' rest more : Bytes}

theorem decode_append (h : t.decode bytes = .ok packet) (more : Bytes) :
    t.decode (bytes ++ more) = .ok packet :=
  (Codec.decode_foretells t.reader bytes more [] 0).bind_same.of_ok h

/-- Packets are taken from the front of some bytes, one after the other, and leave a rest. -/
inductive Takes (t : PacketType) : Bytes → List Packet → Bytes → Prop
  | nil (bytes : Bytes) : Takes t bytes [] bytes
  | cons {bytes rest : Bytes} {packet : Packet} {packets : List Packet}
      (head : t.decode bytes = .ok packet) (nonempty : packet.size ≠ 0)
      (tail : Takes t (bytes.drop packet.size) packets rest) : Takes t bytes (packet :: packets) rest

namespace Takes

theorem trans (h : Takes t bytes packets bytes') (h' : Takes t bytes' packets' rest) :
    Takes t bytes (packets ++ packets') rest := by
  induction h with
  | nil => exact h'
  | cons head nonempty _ ih => exact .cons head nonempty (ih h')

theorem append (h : Takes t bytes packets rest) (more : Bytes) :
    Takes t (bytes ++ more) packets (rest ++ more) := by
  induction h with
  | nil bytes => exact .nil (bytes ++ more)
  | cons head nonempty _ ih =>
    refine .cons (decode_append head more) nonempty ?_
    rwa [List.drop_append_of_le_length (size_le_of_decode head)]

theorem size_le_and_drop (h : Takes t bytes packets rest) :
    Packet.totalSize packets ≤ bytes.length ∧
      bytes.drop (Packet.totalSize packets) = rest := by
  induction h with
  | nil bytes => exact ⟨Nat.zero_le _, rfl⟩
  | @cons bytes rest packet packets head _ _ ih =>
    obtain ⟨hle, hdrop⟩ := ih
    have hsize := size_le_of_decode head
    rw [List.length_drop] at hle
    rw [Packet.totalSize]
    refine ⟨by omega, ?_⟩
    rw [← List.drop_drop]
    exact hdrop

end Takes

end PacketType

namespace Parser

open PacketType

variable {σ : Type} {t : PacketType} {p : Parser} {packets : List Packet} {bytes rest : Bytes}

/-- An outcome that tells of dropped bytes. -/
def Discards (outcome : Except Error Unit) : Prop :=
  ∃ buffer source, outcome = .error (.discarded buffer source)

/-- The bytes that an outcome tells of as dropped. -/
def discarded? {α : Type} : Except Error α → Option Bytes
  | .error (.discarded buffer _) => some buffer
  | _ => none

theorem eq_error_of_discarded? {α : Type} {outcome : Except Error α} {buffer : Bytes}
    (h : discarded? outcome = some buffer) : ∃ source, outcome = .error (.discarded buffer source) := by
  unfold discarded? at h
  split at h
  · cases h
    exact ⟨_, rfl⟩
  · cases h

section Drain

variable {consumer : Consumer σ} {state state' : σ}

/-- What becomes of the bytes behind the packets that are handed over. They are discarded only when the consumer
has accepted all packets. -/
inductive Leaves (consumer : Consumer σ) (state : σ) (packets : List Packet) (rest : Bytes) (p' : Parser)
    (outcome : Except Error Unit) : Prop
  | waits (hp : p'.pending = rest) (ho : outcome = .ok ())
  | refused (hp : p'.pending = rest) (ha : consumer.accepts packets state = false)
  | discards (cause : Error) (hp : p'.pending = []) (ho : outcome = .error (.discarded rest cause))
      (ha : consumer.accepts packets state = true)

theorem Leaves.cons {p' : Parser} {packet : Packet} {outcome : Except Error Unit}
    (hc : consumer packet state = (.ok (), state'))
    (h : Leaves consumer state' packets rest p' outcome) :
    Leaves consumer state (packet :: packets) rest p' outcome := by
  have haccepts : consumer.accepts (packet :: packets) state = consumer.accepts packets state' := by
    simp only [Consumer.accepts, hc]
  cases h with
  | waits hp ho => exact .waits hp ho
  | refused hp ha => exact .refused hp (haccepts.trans ha)
  | discards cause hp ho ha => exact .discards cause hp ho (haccepts.trans ha)

theorem Drains.takes_and_leaves {p p' : Parser} {outcome : Except Error Unit}
    (h : Drains consumer p state packets p' state' outcome) :
    ∃ rest, Takes p.packetType p.pending packets rest ∧
      Leaves consumer state packets rest p' outcome := by
  induction h with
  | waits _ => exact ⟨_, .nil _, .waits rfl rfl⟩
  | discards cause _ => exact ⟨_, .nil _, .discards cause rfl rfl rfl⟩
  | refused hd hz hc =>
    exact ⟨_, .cons hd hz (.nil _), .refused rfl (by simp only [Consumer.accepts, hc])⟩
  | takes hd hz hc _ ih =>
    obtain ⟨rest, htakes, hleaves⟩ := ih
    exact ⟨rest, .cons hd hz htakes, hleaves.cons hc⟩

theorem Leaves.eq_append {p : Parser} {outcome : Except Error Unit}
    (h : Leaves consumer state packets rest p outcome) :
    rest = (if consumer.accepts packets state then discarded? outcome else none).getD [] ++ p.pending := by
  cases h with
  | waits hp ho =>
    have hnone : discarded? outcome = none := by
      rw [ho]
      rfl
    rw [hnone, ite_self, hp]
    rfl
  | refused hp ha =>
    rw [ha, hp]
    rfl
  | discards cause hp ho ha =>
    rw [if_pos ha, ho, hp, List.append_nil]
    rfl

end Drain

/-- A call on a parser: bytes that are only taken in, a packet that is asked for, or a step that hands
over packets to a consumer of its own. -/
inductive Call : Type 1 where
  | feed (chunk : Bytes)
  | next
  | transform {σ : Type} (chunk : Bytes) (consumer : Consumer σ) (state : σ)

namespace Call

/-- The bytes that a call gives to the parser. -/
def given : Call → Bytes
  | feed chunk => chunk
  | next => []
  | transform chunk _ _ => chunk

def after (p : Parser) : Call → Parser
  | feed chunk => p.feed chunk
  | next => p.next.parser
  | transform chunk consumer state => (p.transform chunk consumer state).parser

def outcome (p : Parser) : Call → Except Error Unit
  | feed _ => .ok ()
  | next => p.next.outcome.map fun _ => ()
  | transform chunk consumer state => (p.transform chunk consumer state).outcome

/-- The packets that a call returns or hands over, also one that the consumer then fails on. -/
def delivered (p : Parser) : Call → List Packet
  | feed _ => []
  | next =>
    match p.next.outcome with
    | .ok (some packet) => [packet]
    | _ => []
  | transform chunk consumer state => (p.transform chunk (noting consumer) (state, [])).consumer.2

/-- A step ends as draining does, and delivers the packets that draining hands over. -/
theorem transform_of_drains {σ : Type} {p p' : Parser} {chunk : Bytes} {consumer : Consumer σ} {state state' : σ}
    {packets : List Packet} {outcome : Except Error Unit}
    (h : Drains consumer (p.feed chunk) state packets p' state' outcome) :
    (Call.transform chunk consumer state).after p = p' ∧
      (Call.transform chunk consumer state).outcome p = outcome ∧
      (Call.transform chunk consumer state).delivered p = packets :=
  ⟨congrArg Prod.fst h.result, congrArg (fun result => result.2.2) h.result,
    congrArg (fun result => result.2.1.2) (h.noting []).result⟩

/-- What a call discards. An error that comes from a consumer may carry bytes, too, but they are not the
parser's. -/
def discarded? (p : Parser) : Call → Option Bytes
  | .feed _ => none
  | .next => Parser.discarded? p.next.outcome
  | .transform chunk consumer state =>
    if consumer.accepts ((Call.transform chunk consumer state).delivered p) state then
      Parser.discarded? (p.transform chunk consumer state).outcome
    else none

theorem discards_of_discarded? {p : Parser} {call : Call} {buffer : Bytes}
    (h : call.discarded? p = some buffer) : Discards (call.outcome p) := by
  cases call with
  | feed chunk => cases h
  | next =>
    obtain ⟨source, h⟩ := eq_error_of_discarded? h
    exact ⟨buffer, source, by rw [outcome, h]; rfl⟩
  | transform chunk consumer state =>
    rw [discarded?] at h
    split at h
    · obtain ⟨source, h⟩ := eq_error_of_discarded? h
      exact ⟨buffer, source, h⟩
    · cases h

theorem takes_before_discarded (p : Parser) (call : Call) :
    (call.after p).packetType = p.packetType ∧
      Takes p.packetType (p.pending ++ call.given) (call.delivered p)
        ((call.discarded? p).getD [] ++ (call.after p).pending) := by
  cases call with
  | feed chunk => exact ⟨rfl, .nil _⟩
  | next =>
    rw [given, List.append_nil]
    cases asked p with
    | waits h =>
      simp only [after, delivered, discarded?, h]
      exact ⟨trivial, .nil _⟩
    | discards cause h =>
      simp only [after, delivered, discarded?, h]
      refine ⟨rfl, ?_⟩
      -- All that was pending is discarded, and nothing is pending any more.
      change Takes p.packetType p.pending [] (p.pending ++ [])
      rw [List.append_nil]
      exact .nil _
    | takes packet hd hz =>
      obtain ⟨houtcome, hparser⟩ := next_of_decode hd hz
      simp only [after, delivered, discarded?, houtcome, hparser]
      exact ⟨rfl, .cons hd hz (.nil _)⟩
  | transform chunk consumer state =>
    obtain ⟨packets, p', state', outcome', h⟩ := exists_drains consumer (p.feed chunk) state
    obtain ⟨hafter, houtcome, hdelivered⟩ := transform_of_drains h
    obtain ⟨rest, htakes, hleaves⟩ := h.takes_and_leaves
    have houtcome' : (p.transform chunk consumer state).outcome = outcome' := houtcome
    rw [hafter, discarded?, houtcome', hdelivered, ← hleaves.eq_append]
    exact ⟨h.packetType_eq, htakes⟩

theorem takes_delivered (p : Parser) (call : Call) :
    (call.after p).packetType = p.packetType ∧
      (Takes p.packetType (p.pending ++ call.given) (call.delivered p) (call.after p).pending ∨
        Discards (call.outcome p)) := by
  obtain ⟨htype, htakes⟩ := call.takes_before_discarded p
  refine ⟨htype, ?_⟩
  cases h : call.discarded? p with
  | none =>
    rw [h] at htakes
    exact .inl htakes
  | some buffer => exact .inr (discards_of_discarded? h)

end Call

section Calls

/-- All the bytes that calls give to a parser. -/
def givenAll (calls : List Call) : Bytes :=
  calls.flatMap Call.given

def afterAll (p : Parser) : List Call → Parser
  | [] => p
  | call :: rest => (call.after p).afterAll rest

def outcomeAll (p : Parser) : List Call → List (Except Error Unit)
  | [] => []
  | call :: rest => call.outcome p :: (call.after p).outcomeAll rest

def deliveredAll (p : Parser) : List Call → List Packet
  | [] => []
  | call :: rest => call.delivered p ++ (call.after p).deliveredAll rest

theorem takes_deliveredAll (p : Parser) (calls : List Call)
    (h : ∀ outcome ∈ p.outcomeAll calls, ¬ Discards outcome) :
    Takes p.packetType (p.pending ++ givenAll calls) (p.deliveredAll calls)
      (p.afterAll calls).pending := by
  induction calls generalizing p with
  | nil =>
    rw [givenAll, List.flatMap_nil, List.append_nil]
    exact .nil _
  | cons call rest ih =>
    obtain ⟨htype, htakes⟩ := call.takes_delivered p
    have hfirst := htakes.resolve_right (h _ List.mem_cons_self)
    have hrest := ih (call.after p) fun outcome hm => h outcome (List.mem_cons_of_mem _ hm)
    rw [htype] at hrest
    rw [givenAll, List.flatMap_cons, ← List.append_assoc]
    exact (hfirst.append _).trans hrest

private theorem result_drain_takes (h : Takes t bytes packets rest) (before : List Packet) :
    ((unbounded t bytes).drain collect before).result =
      ((unbounded t rest).drain collect (before ++ packets)).result := by
  induction h generalizing before with
  | nil => rw [List.append_nil]
  | @cons bytes rest packet packets head nonempty _ ih =>
    obtain ⟨houtcome, hparser⟩ := next_of_decode (p := unbounded t bytes) head nonempty
    rw [result_drain_packet houtcome hparser rfl]
    change ((unbounded t (bytes.drop packet.size)).drain collect (before ++ [packet])).result = _
    rw [ih, List.append_assoc, List.singleton_append]

private theorem prefix_drain_collect (p : Parser) (before : List Packet) :
    before <+: (p.drain collect before).consumer := by
  fun_induction drain p collect before with
  | case1 => exact List.prefix_rfl
  | case2 => exact List.prefix_rfl
  | case3 p before packet _ e state' hc => cases hc
  | case4 p before packet _ state' hc step ih =>
    cases hc
    exact (List.prefix_append before [packet]).trans ih

/-- The packets that a new unbounded parser hands over when it is given some bytes. -/
def yields (t : PacketType) (bytes : Bytes) : List Packet :=
  ((unbounded t []).transform bytes collect []).consumer

/-- As long as nothing is discarded, a new parser has delivered the first packets of what an unbounded one
yields on all that was given, and holds what stands behind the bytes that these packets have taken. -/
theorem delivered_prefix_yields (t : PacketType) (limit : Option Nat) (calls : List Call)
    (h : ∀ outcome ∈ outcomeAll ⟨t, limit, []⟩ calls, ¬ Discards outcome) :
    deliveredAll ⟨t, limit, []⟩ calls <+: yields t (givenAll calls) ∧
      ∃ consumed, givenAll calls = consumed ++ (afterAll ⟨t, limit, []⟩ calls).pending ∧
        consumed.length = Packet.totalSize (deliveredAll ⟨t, limit, []⟩ calls) := by
  have htakes : t.Takes (givenAll calls) (deliveredAll ⟨t, limit, []⟩ calls)
      (afterAll ⟨t, limit, []⟩ calls).pending := takes_deliveredAll ⟨t, limit, []⟩ calls h
  constructor
  · have hwhole : yields t (givenAll calls) =
        ((unbounded t (afterAll ⟨t, limit, []⟩ calls).pending).drain collect
          ([] ++ deliveredAll ⟨t, limit, []⟩ calls)).consumer :=
      congrArg (fun result => result.2.1) (result_drain_takes htakes [])
    rw [hwhole]
    exact prefix_drain_collect _ _
  · obtain ⟨hle, hdrop⟩ := htakes.size_le_and_drop
    refine ⟨(givenAll calls).take (Packet.totalSize (deliveredAll ⟨t, limit, []⟩ calls)), ?_, ?_⟩
    · rw [← hdrop, List.take_append_drop]
    · rw [List.length_take, Nat.min_eq_left hle]

section Message

private def refuse : Consumer Unit := fun _ _ => (.error (.decode (.here (.reported "full"))), ())

/-- The first part of a message is fed, the rest comes in a step whose consumer fails, with the start of
another message behind it; then one more packet is asked for. -/
private def messageCalls : List Call :=
  [.feed [1, 1, 2], .transform [97, 98, 0, 7, 1, 1] refuse (), .next]

private def messagePacket : Packet :=
  ⟨.record [("kind", .uint 1), ("names", .array [.string "ab"]), ("body", .uint 7)], 7⟩

/-- The packet that the consumer failed on counts as delivered, and the next message is waited for. -/
theorem message_delivered_prefix_yields :
    (∀ outcome ∈ outcomeAll ⟨.ofCodec .message, some 6, []⟩ messageCalls, ¬ Discards outcome) ∧
      deliveredAll ⟨.ofCodec .message, some 6, []⟩ messageCalls = [messagePacket] ∧
      (afterAll ⟨.ofCodec .message, some 6, []⟩ messageCalls).pending = [1, 1] ∧
      deliveredAll ⟨.ofCodec .message, some 6, []⟩ messageCalls <+:
        yields (.ofCodec .message) [1, 1, 2, 97, 98, 0, 7, 1, 1] := by
  have hnext : (Parser.next ⟨.ofCodec .message, some 6, [1, 1, 2, 97, 98, 0, 7, 1, 1]⟩).outcome =
      .ok (some messagePacket) := by
    rfl
  have hstep : (Parser.transform ⟨.ofCodec .message, some 6, [1, 1, 2]⟩ [97, 98, 0, 7, 1, 1]
      refuse ()).result =
        (⟨.ofCodec .message, some 6, [1, 1]⟩, (), .error (.decode (.here (.reported "full")))) :=
    result_drain_refused hnext rfl
  have hnoted : (Parser.transform ⟨.ofCodec .message, some 6, [1, 1, 2]⟩ [97, 98, 0, 7, 1, 1]
      (noting refuse) ((), [])).result =
        (⟨.ofCodec .message, some 6, [1, 1]⟩, ((), [messagePacket]),
          .error (.decode (.here (.reported "full")))) :=
    result_drain_refused hnext rfl
  simp only [Step.result, Prod.mk.injEq] at hstep hnoted
  obtain ⟨hparser, _, houtcome⟩ := hstep
  have h : ∀ outcome ∈ outcomeAll ⟨.ofCodec .message, some 6, []⟩ messageCalls,
      ¬ Discards outcome := by
    have hall : outcomeAll ⟨.ofCodec .message, some 6, []⟩ messageCalls =
        [.ok (), .error (.decode (.here (.reported "full"))), .ok ()] := by
      simp only [messageCalls, outcomeAll, Call.outcome, Call.after, feed, List.nil_append, hparser,
        houtcome]
      rfl
    rw [hall]
    rintro outcome hm ⟨buffer, source, rfl⟩
    simp at hm
  refine ⟨h, ?_, ?_, (delivered_prefix_yields _ _ _ h).1⟩
  · simp only [messageCalls, deliveredAll, Call.delivered, Call.after, feed, List.nil_append, hparser,
      hnoted]
    rfl
  · simp only [messageCalls, afterAll, Call.after, feed, List.nil_append, hparser]
    rfl

end Message

end Calls

end Parser

end PacketCodec
