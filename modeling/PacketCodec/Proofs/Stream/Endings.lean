import PacketCodec.Framing.WholePacketParser
import PacketCodec.Proofs.Compile.Becomes
import PacketCodec.Proofs.Framing.Draining
import PacketCodec.Proofs.Stream.Deliveries

/-!
# How iteration ends

Asking a reader for an item uses something up: a packet or an error that waits to be handed out, or part of
the source. So after finitely many items the source has ended and nothing waits, and from then on every item is
the same. There is none if the parser holds nothing. A parser that holds the beginning of a packet keeps it, and
then every further item tells of its loss.
-/

namespace PacketCodec

namespace Source

theorem remaining_read_lt {source : Source} {room : Nat} (hs : source ≠ []) (hroom : 0 < room) :
    (source.read room).2.remaining < source.remaining := by
  cases source with
  | nil => exact absurd rfl hs
  | cons item rest =>
    cases item with
    | data bs =>
      by_cases hfits : bs.length ≤ room
      · simp only [read, hfits, if_true, remaining]
        omega
      · simp only [read, hfits, if_false, remaining, List.length_drop]
        omega
    | interrupted => simp [read, remaining]
    | failed text => simp [read, remaining]

theorem remaining_read_le (source : Source) {room : Nat} (hroom : 0 < room) :
    (source.read room).2.remaining ≤ source.remaining := by
  by_cases hs : source = []
  · rw [hs]
    exact Nat.le_refl 0
  · exact Nat.le_of_lt (remaining_read_lt hs hroom)

end Source

namespace Parser

open PacketType

/-- A parser that does not hold a whole packet, and has nothing to discard either. -/
def Idle (p : Parser) : Prop :=
  p.next = ⟨p, .ok none, []⟩

variable {p p' : Parser} {packets seen seen' : List Packet} {outcome : Except Error Unit}

theorem Idle.pending_incomplete (h : p.Idle) (hp : p.pending ≠ []) :
    ∃ needed available, p.packetType.decode p.pending = .error (.incomplete needed available) := by
  have hnext : p.next = ⟨p, .ok none, []⟩ := h
  have hempty : p.pending.isEmpty = false := List.isEmpty_eq_false_iff.2 hp
  cases hd : p.packetType.decode p.pending with
  | ok packet =>
    by_cases hz : packet.size = 0
    · simp [next, hempty, hd, hz, discard] at hnext
    · simp [next, hempty, hd, hz] at hnext
  | error e =>
    cases e with
    | incomplete needed available => exact ⟨needed, available, rfl⟩
    | invalid e => simp [next, hempty, hd, discard] at hnext

theorem Drains.idle_of_collect (h : Drains collect p seen packets p' seen' outcome) : p'.Idle := by
  induction h with
  | waits h => exact h
  | discards cause h => simp [Idle, next, clear]
  | refused hd hz hc => cases hc
  | takes hd hz hc rest ih => exact ih

open ReadOutcome

theorem idle_parserAfter (read : ReadOutcome) (h : p.Idle) :
    (read.parserAfter p).Idle ∧ (read.parserAfter p).packetType = p.packetType := by
  match read with
  | .interrupted => exact ⟨h, rfl⟩
  | .failed text => exact ⟨h, rfl⟩
  | .data [] => exact ⟨h, rfl⟩
  | .data (b :: bs) =>
    obtain ⟨packets, p', seen, outcome, hdrains⟩ := exists_drains collect (p.feed (b :: bs)) []
    have hparser : parserAfter p (.data (b :: bs)) = p' := congrArg Prod.fst hdrains.result
    rw [hparser]
    exact ⟨hdrains.idle_of_collect, hdrains.packetType_eq⟩

theorem idle_parserAfterAll (reads : List ReadOutcome) (h : p.Idle) :
    (parserAfterAll p reads).Idle ∧ (parserAfterAll p reads).packetType = p.packetType := by
  induction reads generalizing p with
  | nil => exact ⟨h, rfl⟩
  | cons read rest ih =>
    obtain ⟨hidle, htype⟩ := idle_parserAfter read h
    obtain ⟨hrest, htypeRest⟩ := ih hidle
    exact ⟨hrest, htypeRest.trans htype⟩

end Parser

namespace PacketReader

open ReadOutcome

variable {π : Type}

/-- The source has ended, and nothing waits to be handed out. -/
structure Exhausted (r : PacketReader π) : Prop where
  source : r.source = []
  pending : r.pending = []
  heldError : r.heldError = none

/-- A reader that has not been asked for anything. -/
def new (source : Source) (parser : π) (chunkSize : Nat) : PacketReader π :=
  { source, parser, chunkSize }

variable [ChunkParser π]

/-- The reader after a number of items has been asked for. -/
def afterItems (r : PacketReader π) (count : Nat) : PacketReader π :=
  r.afterAll (List.replicate count .iterate)

/-- The item that is handed out after a number of others. -/
def item (r : PacketReader π) (n : Nat) : Option (Except Error Packet) :=
  (r.afterItems n).next.item?

@[simp] theorem item_zero (r : PacketReader π) : r.item 0 = r.next.item? := rfl

@[simp] theorem item_succ (r : PacketReader π) (n : Nat) : r.item (n + 1) = r.next.reader.item n := rfl

theorem item_add (r : PacketReader π) (m n : Nat) : r.item (m + n) = (r.afterItems m).item n := by
  induction m generalizing r with
  | zero =>
    rw [Nat.zero_add]
    rfl
  | succ m ih =>
    rw [Nat.succ_add]
    exact ih r.next.reader

theorem Exhausted.next_eq {r : PacketReader π} (h : r.Exhausted) : r.next = ⟨r, r.atEnd, []⟩ := by
  have hsource : r.source = [] := h.source
  have hpending : r.pending = [] := h.pending
  have herror : r.heldError = none := h.heldError
  obtain ⟨source, parser, chunkSize, pending, heldError⟩ := r
  subst hsource hpending herror
  rw [next]
  simp [Source.read]

theorem next_of_data {r : PacketReader π} {source : Source} {b : UInt8} {bs : Bytes}
    (hp : r.pending = []) (he : r.heldError = none)
    (hread : r.source.read r.room = (.data (b :: bs), source)) :
    r.next.reader = (r.takeIn source (b :: bs)).1.next.reader ∧
      r.next.outcome = (r.takeIn source (b :: bs)).1.next.outcome := by
  rw [next]
  split
  · rename_i hsome
    cases hp.symm.trans hsome
  · rename_i _ hsome
    cases he.symm.trans hsome
  · split <;> rename_i h <;> cases hread.symm.trans h
    exact ⟨rfl, rfl⟩

theorem remaining_next_le (r : PacketReader π) :
    r.next.reader.source.remaining ≤ r.source.remaining := by
  fun_induction next r with
  | case1 r packet pending hp => exact Nat.le_refl _
  | case2 r e he hp => exact Nat.le_refl _
  | case3 r he hp source hr ih =>
    exact Nat.le_trans ih (Nat.le_of_lt (Source.remaining_lt_of_interrupted hr))
  | case4 r he hp text source hr =>
    have hle := Source.remaining_read_le r.source r.room_pos
    rwa [hr] at hle
  | case5 r he hp source hr r' =>
    have hle := Source.remaining_read_le r.source r.room_pos
    rwa [hr] at hle
  | case6 r he hp b bs source hr taken delivery ih =>
    exact Nat.le_trans ih (Nat.le_of_lt (Source.remaining_lt_of_data hr))

/-- Asking for an item uses up some of the source, or some of what waits, unless the reader is exhausted. -/
theorem next_progresses (r : PacketReader π) (hr : ¬ r.Exhausted) :
    r.next.reader.source.remaining < r.source.remaining ∨
      r.next.reader.source.remaining = r.source.remaining ∧
        r.next.reader.owed.length < r.owed.length := by
  fun_cases next r with
  | case1 packet pending hp =>
    right
    simp [owed, hp]
  | case2 e he hp =>
    right
    simp [owed, hp, he]
  | case3 he hp source hread =>
    left
    exact Nat.lt_of_le_of_lt (remaining_next_le _) (Source.remaining_lt_of_interrupted hread)
  | case4 he hp text source hread =>
    left
    have hsource : r.source ≠ [] := by
      intro hnil
      rw [hnil] at hread
      cases hread
    have hlt := Source.remaining_read_lt hsource r.room_pos
    rwa [hread] at hlt
  | case5 he hp source hread r' =>
    left
    have hlt := Source.remaining_read_lt (fun hnil => hr ⟨hnil, hp, he⟩) r.room_pos
    rwa [hread] at hlt
  | case6 he hp b bs source hread taken delivery =>
    left
    exact Nat.lt_of_le_of_lt (remaining_next_le _) (Source.remaining_lt_of_data hread)

theorem exists_exhausted (r : PacketReader π) : ∃ n, (r.afterItems n).Exhausted := by
  by_cases h : r.Exhausted
  · exact ⟨0, h⟩
  · obtain ⟨n, hn⟩ := exists_exhausted r.next.reader
    exact ⟨n + 1, hn⟩
termination_by (r.source.remaining, r.owed.length)
decreasing_by
  rcases next_progresses r h with hlt | ⟨heq, hlt⟩
  · exact Prod.Lex.left _ _ hlt
  · rw [heq]
    exact Prod.Lex.right _ hlt

/-- The item at the end of a source: the loss of what the parser holds, or none if it holds nothing. -/
def itemAtEnd (held : Nat) : Option (Except Error Packet) :=
  if held = 0 then none else some (.error (.unexpectedEof held))

theorem Exhausted.item_eq {r : PacketReader π} (h : r.Exhausted) (n : Nat) :
    r.item n = itemAtEnd (ChunkParser.buffered r.parser) := by
  induction n with
  | zero =>
    rw [item_zero, h.next_eq, itemAtEnd]
    by_cases hz : ChunkParser.buffered r.parser = 0
    · simp [Delivery.item?, atEnd, buffered, hz]
    · simp [Delivery.item?, atEnd, buffered, hz]
  | succ n ih => rw [item_succ, h.next_eq, ih]

/-- After finitely many items a reader has read all of its source and given it to the parser, and every further
item is what the end of the source means to the parser then. -/
theorem exists_settled (r : PacketReader π) :
    ∃ n count reads, r.source.readMany r.room count = (reads, []) ∧
      ∀ k, r.item (n + k) = itemAtEnd (ChunkParser.buffered (parserAfterAll r.parser reads)) := by
  obtain ⟨n, hexhausted⟩ := r.exists_exhausted
  obtain ⟨requests, hasked, _⟩ := r.asked_afterAll (List.replicate n .iterate)
  obtain ⟨count, hreads⟩ := hasked.exists_readMany
  have hparser : (r.afterItems n).parser =
      parserAfterAll r.parser (requests.flatMap Request.reads) := hasked.parser_eq
  have hsource : (r.afterItems n).source = [] := hexhausted.source
  refine ⟨n, count, requests.flatMap Request.reads, ?_, fun k => ?_⟩
  · rw [← hsource]
    exact hreads
  · rw [item_add, hexhausted.item_eq, hparser]

/-- Iteration over what a new reader reads comes to an end. Packet by packet, there is no item any more after
finitely many. With an incremental parser this is so unless the source ends inside a packet: then the parser
holds the beginning of that packet, and every item after finitely many is the loss of it. -/
theorem iteration_ends (t : PacketType) (limit : Option Nat) (source : Source) (chunkSize : Nat) :
    (∃ n, ∀ k, (new source (WholePacketParser.mk t) chunkSize).item (n + k) = none) ∧
      ∃ n count reads, source.readMany (max 1 chunkSize) count = (reads, []) ∧
        let p : Parser := parserAfterAll ⟨t, limit, []⟩ reads
        (p.pending = [] ∧ ∀ k, (new source (Parser.mk t limit []) chunkSize).item (n + k) = none) ∨
          p.pending ≠ [] ∧
            (∃ needed available, t.decode p.pending = .error (.incomplete needed available)) ∧
            ∀ k, (new source (Parser.mk t limit []) chunkSize).item (n + k) =
              some (.error (.unexpectedEof p.pending.length)) := by
  constructor
  · obtain ⟨n, _, _, _, hitem⟩ := exists_settled (new source (WholePacketParser.mk t) chunkSize)
    exact ⟨n, hitem⟩
  obtain ⟨n, count, reads, hreads, hitem⟩ :=
    exists_settled (new source (Parser.mk t limit []) chunkSize)
  refine ⟨n, count, reads, hreads, ?_⟩
  intro p
  have hitem : ∀ k, (new source (Parser.mk t limit []) chunkSize).item (n + k) =
      itemAtEnd p.pending.length := hitem
  have hnew : Parser.Idle ⟨t, limit, []⟩ := rfl
  obtain ⟨hidle, htype⟩ : p.Idle ∧ p.packetType = t := Parser.idle_parserAfterAll reads hnew
  by_cases hp : p.pending = []
  · left
    refine ⟨hp, fun k => ?_⟩
    rw [hitem k, hp]
    rfl
  · right
    have hincomplete := hidle.pending_incomplete hp
    rw [htype] at hincomplete
    refine ⟨hp, hincomplete, fun k => ?_⟩
    have hlength : p.pending.length ≠ 0 := fun h => hp (List.eq_nil_of_length_eq_zero h)
    rw [hitem k, itemAtEnd, if_neg hlength]

section Word

/-- An incremental parser of words of two bytes, and what it holds. -/
private def wordParser (pending : Bytes) : Parser :=
  ⟨.ofCodec (.scalar .u16), none, pending⟩

private theorem word_compiled : Codec.Compiled (.scalar .u16) :=
  ⟨[], {}, .primitive .u16, .new,
    (Registry.compile_eq_ok_iff .new).2 (Schema.Becomes.of_layer .primitive)⟩

private theorem halfWord_item (n : Nat) :
    (new [.data [0]] (wordParser []) 1).item n = some (.error (.unexpectedEof 1)) := by
  have hexhausted : (new [] (wordParser [0]) 1).Exhausted := ⟨rfl, rfl, rfl⟩
  have hdrains : Parser.Drains collect (wordParser [0]) [] [] (wordParser [0]) [] (.ok ()) :=
    .waits rfl
  have htransform : (ChunkParser.transform (wordParser []) [0] collect []).result =
      (wordParser [0], [], .ok ()) := hdrains.result
  have htaken : ((new [.data [0]] (wordParser []) 1).takeIn [] [0]).1 = new [] (wordParser [0]) 1 := by
    simp only [Step.result, Prod.mk.injEq] at htransform
    simp [takeIn, new, htransform]
  have hread : Source.read [.data [0]] (max 1 1) = (.data [0], []) := rfl
  obtain ⟨hreader, houtcome⟩ := next_of_data (r := new [.data [0]] (wordParser []) 1) rfl rfl hread
  rw [htaken, hexhausted.next_eq] at hreader houtcome
  have hend : (new [] (wordParser [0]) 1).atEnd = .error (.unexpectedEof 1) := rfl
  cases n with
  | zero => rw [item_zero, Delivery.item?, houtcome, hend]
  | succ n =>
    rw [item_succ, hreader, hexhausted.item_eq]
    rfl

/-- Where the source ends inside a packet, iteration does not end. -/
theorem halfWord_iteration_endless :
    (∀ n, (new [.data [0]] (Parser.mk (.ofCodec (.scalar .u16)) none []) 1).item n =
        some (.error (.unexpectedEof 1))) ∧
      ¬ ∀ c : Codec, c.Compiled → ∀ (limit : Option Nat) (source : Source) (chunkSize : Nat),
        (∃ n, (new source (WholePacketParser.mk (.ofCodec c)) chunkSize).item n = none) ∧
          ∃ n, (new source (Parser.mk (.ofCodec c) limit []) chunkSize).item n = none := by
  refine ⟨halfWord_item, fun h => ?_⟩
  obtain ⟨_, n, hn⟩ := h (.scalar .u16) word_compiled none [.data [0]] 1
  have hitem := halfWord_item n
  cases hitem.symm.trans hn

end Word

end PacketReader

end PacketCodec
