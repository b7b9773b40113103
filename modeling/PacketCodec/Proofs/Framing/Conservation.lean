import PacketCodec.Proofs.Framing.Calls

/-!
# Where the bytes go

A parser neither loses bytes nor makes up any. Of the bytes that it has been given, in order, each packet that is
delivered has taken some, each discard has dropped those that its error carries, each clearing has dropped all that
was held, and the rest is pending. Since a packet takes at least one byte, a step hands over no more packets than
there are bytes.
-/

namespace PacketCodec

namespace Parser

open PacketType

/-- Bytes that have left a parser: taken by a packet from the front of what was held, discarded, or cleared. -/
inductive Portion where
  | taken (packet : Packet) (held : Bytes)
  | discarded (buffer : Bytes)
  | cleared (held : Bytes)

namespace Portion

def bytes : Portion → Bytes
  | taken packet held => held.take packet.size
  | discarded buffer => buffer
  | cleared held => held

/-- A packet has been decoded from what was held, and has taken some of it. -/
def Sound (t : PacketType) : Portion → Prop
  | taken packet held => t.decode held = .ok packet ∧ 1 ≤ packet.size ∧ packet.size ≤ held.length
  | discarded _ => True
  | cleared _ => True

/-- What packets take, each from what the one before it has left. -/
def ofPackets (held : Bytes) : List Packet → List Portion
  | [] => []
  | packet :: rest => .taken packet held :: ofPackets (held.drop packet.size) rest

end Portion

section Takes

variable {t : PacketType} {held rest : Bytes} {packets : List Packet}

theorem eq_bytes_append_of_takes (h : Takes t held packets rest) :
    held = (Portion.ofPackets held packets).flatMap Portion.bytes ++ rest := by
  induction h with
  | nil held => exact (List.nil_append held).symm
  | cons _ _ _ ih =>
    rw [Portion.ofPackets, List.flatMap_cons, List.append_assoc, ← ih]
    exact (List.take_append_drop _ _).symm

theorem sound_of_takes (h : Takes t held packets rest) :
    ∀ portion ∈ Portion.ofPackets held packets, portion.Sound t := by
  induction h with
  | nil held => exact fun _ hm => (List.not_mem_nil hm).elim
  | cons head nonempty _ ih =>
    intro portion hm
    cases hm with
    | head => exact ⟨head, Nat.one_le_iff_ne_zero.2 nonempty, size_le_of_decode head⟩
    | tail _ hm => exact ih portion hm

theorem length_le_of_takes (h : Takes t held packets rest) : packets.length ≤ held.length := by
  induction h with
  | nil held => exact Nat.zero_le _
  | cons head nonempty _ ih =>
    have hsize := size_le_of_decode head
    rw [List.length_drop] at ih
    rw [List.length_cons]
    omega

end Takes

/-- What is done with a parser: it is called, or what it holds is cleared. -/
inductive Act : Type 1 where
  | call (c : Call)
  | clear

namespace Act

def given : Act → Bytes
  | .call c => c.given
  | .clear => []

def after (p : Parser) : Act → Parser
  | .call c => c.after p
  | .clear => p.clear

/-- The portions of bytes that leave the parser. -/
def portions (p : Parser) : Act → List Portion
  | .call c => Portion.ofPackets (p.pending ++ c.given) (c.delivered p) ++
    ((c.discarded? p).map Portion.discarded).toList
  | .clear => [.cleared p.pending]

theorem packetType_after (p : Parser) (act : Act) : (act.after p).packetType = p.packetType := by
  cases act with
  | call c => exact (c.takes_before_discarded p).1
  | clear => rfl

/-- What was pending and what is given has left in portions or is pending. -/
theorem pending_append_given (p : Parser) (act : Act) :
    p.pending ++ act.given = (act.portions p).flatMap Portion.bytes ++ (act.after p).pending := by
  cases act with
  | call c =>
    have hdiscarded : ((c.discarded? p).map Portion.discarded).toList.flatMap Portion.bytes =
        (c.discarded? p).getD [] := by
      cases c.discarded? p with
      | none => rfl
      | some buffer => exact List.append_nil buffer
    change p.pending ++ c.given = _ ++ (c.after p).pending
    rw [portions, List.flatMap_append, hdiscarded, List.append_assoc]
    exact eq_bytes_append_of_takes (c.takes_before_discarded p).2
  | clear => rw [portions, List.flatMap_singleton]; rfl

theorem sound_portions (p : Parser) (act : Act) :
    ∀ portion ∈ act.portions p, portion.Sound p.packetType := by
  intro portion hm
  cases act with
  | call c =>
    rcases List.mem_append.1 hm with hm | hm
    · exact sound_of_takes (c.takes_before_discarded p).2 portion hm
    · obtain ⟨buffer, -, rfl⟩ := Option.map_eq_some_iff.1 (Option.mem_toList.1 hm)
      trivial
  | clear =>
    cases List.mem_singleton.1 hm
    trivial

end Act

/-- All the bytes that are given to a parser. -/
def givenBy (acts : List Act) : Bytes :=
  acts.flatMap Act.given

def afterActs (p : Parser) : List Act → Parser
  | [] => p
  | act :: rest => (act.after p).afterActs rest

def portions (p : Parser) : List Act → List Portion
  | [] => []
  | act :: rest => act.portions p ++ (act.after p).portions rest

theorem pending_append_givenBy (p : Parser) (acts : List Act) :
    p.pending ++ givenBy acts = (p.portions acts).flatMap Portion.bytes ++ (p.afterActs acts).pending := by
  induction acts generalizing p with
  | nil => exact List.append_nil p.pending
  | cons act rest ih =>
    rw [givenBy, List.flatMap_cons, ← List.append_assoc, act.pending_append_given p, List.append_assoc,
      portions, List.flatMap_append, List.append_assoc]
    exact congrArg _ (ih (act.after p))

theorem sound_portions (p : Parser) (acts : List Act) :
    ∀ portion ∈ p.portions acts, portion.Sound p.packetType := by
  induction acts generalizing p with
  | nil => exact fun _ hm => (List.not_mem_nil hm).elim
  | cons act rest ih =>
    intro portion hm
    rcases List.mem_append.1 hm with hm | hm
    · exact act.sound_portions p portion hm
    · rw [← act.packetType_after p]
      exact ih (act.after p) portion hm

/-- What a new parser has been given is, in order, the portions that have left it and what is pending. A step that
follows comes to an end, whatever its consumer does, with no more packets than there are bytes. -/
theorem conserves_bytes (t : PacketType) (limit : Option Nat) (acts : List Act) :
    let p := afterActs ⟨t, limit, []⟩ acts
    givenBy acts = (portions ⟨t, limit, []⟩ acts).flatMap Portion.bytes ++ p.pending ∧
      (∀ portion ∈ portions ⟨t, limit, []⟩ acts, portion.Sound t) ∧
      ∀ (σ : Type) (chunk : Bytes) (consumer : Consumer σ) (state : σ),
        ∃ packets p' state' outcome, Drains consumer (p.feed chunk) state packets p' state' outcome ∧
          (p.transform chunk consumer state).result = (p', state', outcome) ∧
          (Call.transform chunk consumer state).delivered p = packets ∧
          packets.length ≤ (p.pending ++ chunk).length := by
  intro p
  refine ⟨pending_append_givenBy ⟨t, limit, []⟩ acts, sound_portions ⟨t, limit, []⟩ acts, ?_⟩
  intro σ chunk consumer state
  obtain ⟨packets, p', state', outcome, h⟩ := exists_drains consumer (p.feed chunk) state
  obtain ⟨rest, htakes, -⟩ := h.takes_and_leaves
  have hdelivered := (Call.transform_of_drains h).2.2
  exact ⟨packets, p', state', outcome, h, h.result, hdelivered, length_le_of_takes htakes⟩

/-- One message is taken, and of the next one the first byte is cleared. -/
example : portions ⟨.ofCodec .message, none, []⟩
    [.call (.feed [1, 1, 2, 97, 98]), .call .next, .call (.feed [0, 7, 1]), .call .next, .clear] =
    [.taken ⟨.record [("kind", .uint 1), ("names", .array [.string "ab"]), ("body", .uint 7)], 7⟩
      [1, 1, 2, 97, 98, 0, 7, 1], .cleared [1]] := rfl

end Parser

end PacketCodec
