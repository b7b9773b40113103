import PacketCodec.Proofs.Framing.Chunking

/-!
# Framed streams

A frame is the bytes of one packet: the packet is decoded from them, and nothing else with it, whatever
follows. Of a stream of frames an unbounded parser hands over the packets whose frames have arrived, and
waits for the rest of the frame that has not.
-/

namespace PacketCodec

namespace PacketType

/-- Bytes from which a packet is decoded as a whole, whatever follows them. -/
structure Frames (t : PacketType) (packet : Packet) (frame : Bytes) : Prop where
  nonempty : frame ≠ []
  size_eq : packet.size = frame.length
  decode_append : ∀ more, t.decode (frame ++ more) = .ok packet

/-- A stream is made up of the frames of some packets, one behind the other. -/
inductive Framed (t : PacketType) : List Packet → Bytes → Prop
  | nil : Framed t [] []
  | cons {packet : Packet} {packets : List Packet} {frame stream : Bytes}
      (head : t.Frames packet frame) (tail : Framed t packets stream) :
      Framed t (packet :: packets) (frame ++ stream)

end PacketType

namespace Parser

variable {t : PacketType} {packet : Packet} {packets : List Packet} {frame : Bytes}

/-- An unbounded parser waits for more. -/
def Waits (t : PacketType) (pending : Bytes) : Prop :=
  (unbounded t pending).next = ⟨unbounded t pending, .ok none, []⟩

theorem next_of_frames (h : t.Frames packet frame) (more : Bytes) :
    (unbounded t (frame ++ more)).next.outcome = .ok (some packet) ∧
      (unbounded t (frame ++ more)).next.parser = unbounded t more := by
  simp [next, unbounded, h.nonempty, h.decode_append, h.size_eq]

theorem eq_nil_of_waits {stream : Bytes} (h : t.Framed packets stream) (hw : Waits t stream) :
    packets = [] ∧ stream = [] := by
  cases h with
  | nil => exact ⟨rfl, rfl⟩
  | cons head _ =>
    have hnone := congrArg Pull.outcome hw
    cases (next_of_frames head _).1.symm.trans hnone

theorem waits_of_frames (ht : t.reader.ItemsTakeBytes) {arrived missing : Bytes}
    (h : t.Frames packet (arrived ++ missing)) (hm : missing ≠ []) : Waits t arrived := by
  obtain ⟨houtcome, hparser⟩ := next_of_frames h []
  rw [List.append_nil] at houtcome hparser
  cases front ht arrived with
  | nothing hn => exact hn
  | packet packet' rest _ hp =>
    have hrest := congrArg Parser.pending ((hp missing).2.symm.trans hparser)
    exact absurd (List.append_eq_nil_iff.1 hrest).2 hm
  | fault cause hf =>
    rw [hf missing] at houtcome
    cases houtcome

private theorem arrived_or_missing {arrived more stream : Bytes}
    (h : arrived ++ more = frame ++ stream) :
    (∃ behind, arrived = frame ++ behind ∧ behind ++ more = stream) ∨
      ∃ missing, missing ≠ [] ∧ frame = arrived ++ missing := by
  rcases List.append_eq_append_iff.1 h with ⟨missing, hframe, hmore⟩ | ⟨behind, ha, hstream⟩
  · by_cases hm : missing = []
    · subst hm
      rw [List.append_nil] at hframe
      exact .inl ⟨[], by rw [hframe, List.append_nil], hmore⟩
    · exact .inr ⟨missing, hm, hframe⟩
  · exact .inl ⟨behind, ha, hstream.symm⟩

/-- What has arrived of a framed stream is drained of the packets whose frames are complete. -/
theorem drain_of_framed (ht : t.reader.ItemsTakeBytes) {arrived more stream : Bytes}
    (h : t.Framed packets stream) (hs : arrived ++ more = stream) (before : List Packet) :
    ∃ done todo rest, packets = done ++ todo ∧ t.Framed todo (rest ++ more) ∧ Waits t rest ∧
      ((unbounded t arrived).drain collect before).result =
        (unbounded t rest, before ++ done, .ok ()) := by
  induction h generalizing arrived before with
  | nil =>
    obtain ⟨rfl, rfl⟩ := List.append_eq_nil_iff.1 hs
    refine ⟨[], [], [], rfl, .nil, rfl, ?_⟩
    rw [List.append_nil]
    exact result_drain_nothing rfl before
  | @cons packet packets frame stream head tail ih =>
    rcases arrived_or_missing hs with ⟨behind, ha, hbehind⟩ | ⟨missing, hm, hframe⟩
    · obtain ⟨houtcome, hparser⟩ := next_of_frames head behind
      obtain ⟨done, todo, rest, rfl, htodo, hw, hdrain⟩ := ih hbehind (before ++ [packet])
      refine ⟨packet :: done, todo, rest, rfl, htodo, hw, ?_⟩
      rw [ha, result_drain_packet houtcome hparser rfl, hdrain, List.append_assoc,
        List.singleton_append]
    · have hw : Waits t arrived := waits_of_frames ht (hframe ▸ head) hm
      refine ⟨[], packet :: packets, arrived, rfl, hs ▸ .cons head tail, hw, ?_⟩
      rw [List.append_nil]
      exact result_drain_nothing hw before

end Parser

end PacketCodec
