import PacketCodec.Stream.PacketReader

/-!
# What a packet reader delivers

Each read of a source has something to contribute: the packets that a chunk completes and the error that
ends the step, a failure of the source, or the end. A packet reader hands out these contributions, in order
and each of them once, and reads only when it has handed out everything that was contributed before. This
holds however the caller asks for items, and whatever consumers of packets fail on.

Whatever a caller does comes down to requests for the next item. While something is owed, a request hands out
the first of it and neither reads nor parses; otherwise it reads until something is owed.
-/

namespace PacketCodec

namespace ReadOutcome

variable {π : Type} [ChunkParser π]

/-- What a read contributes when it finds the parser in some state. -/
def contribution (parser : π) : ReadOutcome → List (Except Error (Option Packet))
  | .interrupted => []
  | .failed text => [.error (.io (.failed text))]
  | .data [] =>
    if ChunkParser.buffered parser = 0 then [.ok none]
    else [.error (.unexpectedEof (ChunkParser.buffered parser))]
  | .data (b :: bs) =>
    let step := ChunkParser.transform parser (b :: bs) collect []
    let packets := step.consumer.map fun packet => .ok (some packet)
    match step.outcome with
    | .ok () => packets
    | .error e => packets ++ [.error e]

/-- The state in which a read leaves the parser. -/
def parserAfter (parser : π) : ReadOutcome → π
  | .data (b :: bs) => (ChunkParser.transform parser (b :: bs) collect []).parser
  | _ => parser

/-- What reads contribute, one after the other. -/
def contributions (parser : π) : List ReadOutcome → List (Except Error (Option Packet))
  | [] => []
  | outcome :: rest => outcome.contribution parser ++ contributions (outcome.parserAfter parser) rest

/-- The state in which reads, one after the other, leave the parser. -/
def parserAfterAll (parser : π) : List ReadOutcome → π
  | [] => parser
  | outcome :: rest => parserAfterAll (outcome.parserAfter parser) rest

theorem contributions_append (parser : π) (front back : List ReadOutcome) :
    contributions parser (front ++ back) =
      contributions parser front ++ contributions (parserAfterAll parser front) back := by
  induction front generalizing parser with
  | nil => rfl
  | cons outcome rest ih =>
    simp only [List.cons_append, contributions, parserAfterAll, ih, List.append_assoc]

theorem parserAfterAll_append (parser : π) (front back : List ReadOutcome) :
    parserAfterAll parser (front ++ back) = parserAfterAll (parserAfterAll parser front) back := by
  induction front generalizing parser with
  | nil => rfl
  | cons outcome rest ih => exact ih _

end ReadOutcome

/-- The outcomes of a number of reads, one after the other, and the source after them. -/
def Source.readMany (source : Source) (room : Nat) : Nat → List ReadOutcome × Source
  | 0 => ([], source)
  | count + 1 =>
    let (outcome, source) := source.read room
    let (outcomes, source) := readMany source room count
    (outcome :: outcomes, source)

theorem Source.readMany_append {source middle last : Source} {room m n : Nat}
    {front back : List ReadOutcome} (h : source.readMany room m = (front, middle))
    (h' : middle.readMany room n = (back, last)) :
    source.readMany room (m + n) = (front ++ back, last) := by
  induction m generalizing source front with
  | zero =>
    cases h
    rwa [Nat.zero_add]
  | succ m ih =>
    cases hread : source.read room with
    | mk outcome rest =>
      cases hrest : rest.readMany room m with
      | mk outcomes middle' =>
        simp only [readMany, hread, hrest] at h
        cases h
        simp only [Nat.succ_add, readMany, hread, ih hrest, List.cons_append]

namespace PacketReader

open ReadOutcome

variable {π σ : Type}

/-- What a reader has decoded or met and not handed out yet. -/
def owed (r : PacketReader π) : List (Except Error (Option Packet)) :=
  r.pending.map (fun packet => .ok (some packet)) ++ (r.heldError.map .error).toList

private theorem owed_idle {r : PacketReader π} (hp : r.pending = []) (he : r.heldError = none) :
    r.owed = [] := by
  rw [owed, hp, he]
  rfl

/-- An item of a sequence as it is handed out. -/
def ofItem? : Option (Except Error Packet) → Except Error (Option Packet)
  | none => .ok none
  | some (.ok packet) => .ok (some packet)
  | some (.error e) => .error e

theorem ofItem?_item? (d : Delivery π) : ofItem? d.item? = d.outcome := by
  unfold Delivery.item?
  split <;> rename_i h <;> rw [h] <;> rfl

/-- A request for the next item: the reads that it makes, and the item that it hands out. -/
structure Request where
  reads : List ReadOutcome
  item : Except Error (Option Packet)

variable [ChunkParser π]

/-- From one state of a reader to the next, a request reads while nothing is owed, and hands out the first item
that is owed then. -/
structure Serves (request : Request) (r r' : PacketReader π) : Prop where
  chunkSize_eq : r'.chunkSize = r.chunkSize
  source_eq : r.source.readMany r.room request.reads.length = (request.reads, r'.source)
  parser_eq : r'.parser = parserAfterAll r.parser request.reads
  owed_eq : r.owed ++ contributions r.parser request.reads = request.item :: r'.owed
  idle : ∀ front outcome back, request.reads = front ++ outcome :: back →
    r.owed ++ contributions r.parser front = []

namespace Serves

variable {r r₁ r' : PacketReader π} {source : Source} {outcome : ReadOutcome}
  {reads : List ReadOutcome} {item : Except Error (Option Packet)}

theorem of_owed (hsource : r'.source = r.source) (hparser : r'.parser = r.parser)
    (hsize : r'.chunkSize = r.chunkSize) (howed : r.owed = item :: r'.owed) :
    Serves ⟨[], item⟩ r r' where
  chunkSize_eq := hsize
  source_eq := by rw [hsource]; rfl
  parser_eq := hparser
  owed_eq := by
    rw [contributions, List.append_nil]
    exact howed
  idle front outcome back h := by cases front <;> cases h

theorem of_read (howed : r.owed = []) (hread : r.source.read r.room = (outcome, source))
    (hitem : outcome.contribution r.parser = [item])
    (hparser : outcome.parserAfter r.parser = r.parser) :
    Serves ⟨[outcome], item⟩ r { r with source } where
  chunkSize_eq := rfl
  source_eq := by simp only [List.length_cons, List.length_nil, Source.readMany, hread]
  parser_eq := hparser.symm
  owed_eq := by
    change r.owed ++ (outcome.contribution r.parser ++ []) = item :: r.owed
    rw [howed, hitem]
    rfl
  idle front outcome back h := by
    cases front with
    | nil =>
      rw [howed]
      rfl
    | cons _ rest => cases rest <;> cases h

theorem after_read (h : Serves ⟨reads, item⟩ r₁ r') (howed : r.owed = [])
    (hread : r.source.read r.room = (outcome, r₁.source)) (hsize : r₁.chunkSize = r.chunkSize)
    (hparser : r₁.parser = outcome.parserAfter r.parser)
    (hcontribution : r₁.owed = outcome.contribution r.parser) :
    Serves ⟨outcome :: reads, item⟩ r r' where
  chunkSize_eq := h.chunkSize_eq.trans hsize
  source_eq := by
    have hroom : r₁.room = r.room := congrArg (max 1) hsize
    have hrest := h.source_eq
    rw [hroom] at hrest
    simp only [List.length_cons, Source.readMany, hread, hrest]
  parser_eq := by
    rw [h.parser_eq, hparser]
    rfl
  owed_eq := by
    have hrest := h.owed_eq
    rw [hcontribution, hparser] at hrest
    rw [howed]
    exact hrest
  idle front outcome' back heq := by
    cases front with
    | nil =>
      rw [howed]
      rfl
    | cons first front =>
      obtain ⟨rfl, hreads⟩ := List.cons.inj heq
      have hidle := h.idle front outcome' back hreads
      rw [hcontribution, hparser] at hidle
      rw [howed]
      exact hidle

theorem reads_eq_nil {request : Request} (h : Serves request r r') (howed : r.owed ≠ []) :
    request.reads = [] := by
  cases hreads : request.reads with
  | nil => rfl
  | cons outcome back =>
    have hidle := h.idle [] outcome back hreads
    rw [contributions, List.append_nil] at hidle
    exact absurd hidle howed

end Serves

private theorem owed_takeIn (r : PacketReader π) (source : Source) (b : UInt8) (bs : Bytes) :
    (r.takeIn source (b :: bs)).1.owed = contribution r.parser (.data (b :: bs)) := by
  simp only [takeIn, owed, contribution]
  cases (ChunkParser.transform r.parser (b :: bs) collect []).outcome with
  | ok _ => simp
  | error e => rfl

theorem serves_next (r : PacketReader π) :
    ∃ reads, Serves ⟨reads, r.next.outcome⟩ r r.next.reader := by
  fun_induction next r with
  | case1 r packet pending hp =>
    refine ⟨[], .of_owed rfl rfl rfl ?_⟩
    rw [owed, hp]
    rfl
  | case2 r e he hp =>
    refine ⟨[], .of_owed rfl rfl rfl ?_⟩
    simp only [owed, hp, he]
    rfl
  | case3 r he hp source hr ih =>
    obtain ⟨reads, hrest⟩ := ih
    exact ⟨.interrupted :: reads, hrest.after_read (owed_idle hp he) hr rfl rfl (owed_idle hp he)⟩
  | case4 r he hp text source hr =>
    exact ⟨[.failed text], .of_read (owed_idle hp he) hr rfl rfl⟩
  | case5 r he hp source hr r' =>
    have hend : contribution r.parser (.data []) = [r'.atEnd] := by
      change (if r'.buffered = 0 then _ else _) = [if r'.buffered = 0 then _ else _]
      split <;> rfl
    exact ⟨[.data []], .of_read (owed_idle hp he) hr hend rfl⟩
  | case6 r he hp b bs source hr taken delivery ih =>
    obtain ⟨reads, hrest⟩ := ih
    exact ⟨.data (b :: bs) :: reads,
      hrest.after_read (owed_idle hp he) hr rfl rfl (owed_takeIn r source b bs)⟩

/-- While something is owed, the first of it is handed out, and neither the source nor the parser is touched. -/
theorem next_of_owed {r : PacketReader π} {item : Except Error (Option Packet)}
    {rest : List (Except Error (Option Packet))} (h : r.owed = item :: rest) :
    r.next.outcome = item ∧ r.next.reader.owed = rest ∧ r.next.reader.source = r.source ∧
      r.next.reader.parser = r.parser := by
  obtain ⟨reads, hserves⟩ := r.serves_next
  have hreads : reads = [] := hserves.reads_eq_nil (by simp [h])
  subst hreads
  have howed := hserves.owed_eq
  rw [h, contributions, List.append_nil] at howed
  obtain ⟨hitem, hrest⟩ := List.cons.inj howed
  exact ⟨hitem.symm, hrest.symm, (congrArg Prod.snd hserves.source_eq).symm, hserves.parser_eq⟩

/-- A reader is asked for its next item again and again. -/
inductive Asked : PacketReader π → List Request → PacketReader π → Prop
  | nil (r : PacketReader π) : Asked r [] r
  | cons {r r' : PacketReader π} {request : Request} {rest : List Request}
      (item : r.next.outcome = request.item) (serves : Serves request r r.next.reader)
      (tail : Asked r.next.reader rest r') : Asked r (request :: rest) r'

namespace Asked

variable {r r' r'' : PacketReader π} {requests front back : List Request}

theorem append (h : Asked r front r') (h' : Asked r' back r'') : Asked r (front ++ back) r'' := by
  induction h with
  | nil => exact h'
  | cons item serves _ ih => exact .cons item serves (ih h')

theorem split (h : Asked r (front ++ back) r') : ∃ asked, Asked r front asked ∧ Asked asked back r' := by
  induction front generalizing r with
  | nil => exact ⟨r, .nil r, h⟩
  | cons request rest ih =>
    cases h with
    | cons item serves tail =>
      obtain ⟨asked, hfront, hback⟩ := ih tail
      exact ⟨asked, .cons item serves hfront, hback⟩

theorem exists_readMany (h : Asked r requests r') :
    ∃ count, r.source.readMany r.room count = (requests.flatMap Request.reads, r'.source) := by
  induction h with
  | nil => exact ⟨0, rfl⟩
  | cons item serves tail ih =>
    obtain ⟨count, hcount⟩ := ih
    rw [room, serves.chunkSize_eq, ← room] at hcount
    exact ⟨_, Source.readMany_append serves.source_eq hcount⟩

theorem parser_eq (h : Asked r requests r') :
    r'.parser = parserAfterAll r.parser (requests.flatMap Request.reads) := by
  induction h with
  | nil => rfl
  | cons item serves tail ih =>
    rw [List.flatMap_cons, parserAfterAll_append, ← serves.parser_eq]
    exact ih

theorem owed_eq (h : Asked r requests r') :
    r.owed ++ contributions r.parser (requests.flatMap Request.reads) =
      requests.map Request.item ++ r'.owed := by
  induction h with
  | nil => exact List.append_nil _
  | cons item serves tail ih =>
    rw [List.flatMap_cons, contributions_append, ← serves.parser_eq, ← List.append_assoc,
      serves.owed_eq, List.cons_append, ih]
    rfl

theorem of_read (h : Asked r front r') {request : Request} {after : PacketReader π}
    (hrequest : Serves request r' after) {first last : List ReadOutcome} {outcome : ReadOutcome}
    (hreads : request.reads = first ++ outcome :: last) :
    front.map Request.item = r.owed ++ contributions r.parser (front.flatMap Request.reads ++ first) := by
  have hidle := hrequest.idle first outcome last hreads
  rw [contributions_append, ← h.parser_eq, ← List.append_assoc, h.owed_eq, List.append_assoc, hidle,
    List.append_nil]

end Asked

section ProcessAll

variable {r : PacketReader π} {consumer : Consumer σ} {state state' : σ}

theorem processAll_of_error {e : Error} (h : r.next.outcome = .error e) :
    r.processAll consumer state = ⟨r.next.reader, state, .error e, r.next.events⟩ := by
  rw [processAll]
  split <;> rename_i h' <;> cases h.symm.trans h'
  rfl

theorem processAll_of_none (h : r.next.outcome = .ok none) :
    r.processAll consumer state = ⟨r.next.reader, state, .ok (), r.next.events⟩ := by
  rw [processAll]
  split <;> rename_i h' <;> cases h.symm.trans h'
  rfl

theorem processAll_of_refused {packet : Packet} {e : Error}
    (h : r.next.outcome = .ok (some packet)) (hc : consumer packet state = (.error e, state')) :
    r.processAll consumer state = ⟨r.next.reader, state', .error e, r.next.events⟩ := by
  rw [processAll]
  split <;> rename_i h' <;> cases h.symm.trans h'
  simp only [hc]

theorem processAll_of_packet {packet : Packet} (h : r.next.outcome = .ok (some packet))
    (hc : consumer packet state = (.ok (), state')) :
    r.processAll consumer state =
      let rest := r.next.reader.processAll consumer state'
      { rest with events := r.next.events ++ rest.events } := by
  rw [processAll]
  split <;> rename_i h' <;> cases h.symm.trans h'
  simp only [hc]

end ProcessAll

/-- What a consumer has been handed, and whether it has failed on the last of it. -/
structure Seen (σ : Type) where
  state : σ
  packets : List Packet := []
  failed : Bool := false

/-- A consumer that notes what it is handed and whether it fails. -/
def noting (consumer : Consumer σ) : Consumer (Seen σ) := fun packet seen =>
  let packets := seen.packets ++ [packet]
  match consumer packet seen.state with
  | (.ok (), state) => (.ok (), { state, packets })
  | (.error e, state) => (.error e, { state, packets, failed := true })

/-- What is handed out while packets are processed: the packets, and what ended the processing, unless it
was the consumer. -/
def processed (p : Processing π (Seen σ)) : List (Except Error (Option Packet)) :=
  p.consumer.packets.map (fun packet => .ok (some packet)) ++
    if p.consumer.failed then [] else [p.outcome.map fun _ => none]

/-- Processing with a consumer that notes leaves the reader as processing without it does, and asks for one item
after the other. -/
theorem asked_processAll (r : PacketReader π) (consumer : Consumer σ) (state : σ)
    (before : List Packet) :
    (r.processAll (noting consumer) ⟨state, before, false⟩).reader =
        (r.processAll consumer state).reader ∧
      ∃ requests, Asked r requests (r.processAll consumer state).reader ∧
        processed (r.processAll (noting consumer) ⟨state, before, false⟩) =
          before.map (fun packet => .ok (some packet)) ++ requests.map Request.item := by
  fun_induction processAll r consumer state generalizing before with
  | case1 r state e h =>
    obtain ⟨reads, hserves⟩ := r.serves_next
    rw [processAll_of_error h]
    refine ⟨rfl, [⟨reads, r.next.outcome⟩], .cons rfl hserves (.nil _), ?_⟩
    rw [h]
    rfl
  | case2 r state h =>
    obtain ⟨reads, hserves⟩ := r.serves_next
    rw [processAll_of_none h]
    refine ⟨rfl, [⟨reads, r.next.outcome⟩], .cons rfl hserves (.nil _), ?_⟩
    rw [h]
    rfl
  | case3 r state packet h e state' hc =>
    obtain ⟨reads, hserves⟩ := r.serves_next
    have hnoting : noting consumer packet ⟨state, before, false⟩ =
        (.error e, ⟨state', before ++ [packet], true⟩) := by
      simp only [noting, hc]
    rw [processAll_of_refused h hnoting]
    refine ⟨rfl, [⟨reads, r.next.outcome⟩], .cons rfl hserves (.nil _), ?_⟩
    rw [h]
    simp [processed]
  | case4 r state packet h state' hc rest ih =>
    obtain ⟨reads, hserves⟩ := r.serves_next
    obtain ⟨hreader, requests, hasked, hprocessed⟩ := ih (before ++ [packet])
    have hnoting : noting consumer packet ⟨state, before, false⟩ =
        (.ok (), ⟨state', before ++ [packet], false⟩) := by
      simp only [noting, hc]
    rw [processAll_of_packet h hnoting]
    refine ⟨hreader, ⟨reads, r.next.outcome⟩ :: requests, .cons rfl hserves hasked, ?_⟩
    rw [List.map_append, List.append_assoc] at hprocessed
    rw [h]
    exact hprocessed

/-- A call on a reader: for the next item, directly or as from a sequence of items, or to process all
packets with a consumer of its own. -/
inductive Call : Type 1 where
  | next
  | iterate
  | process {σ : Type} (consumer : Consumer σ) (state : σ)

namespace Call

def after (r : PacketReader π) : Call → PacketReader π
  | next => r.next.reader
  | iterate => r.next.reader
  | process consumer state => (r.processAll consumer state).reader

/-- What a call hands out, to the caller or to its consumer. -/
def handedOut (r : PacketReader π) : Call → List (Except Error (Option Packet))
  | next => [r.next.outcome]
  | iterate => [ofItem? r.next.item?]
  | process consumer state => processed (r.processAll (noting consumer) { state })

theorem asked_after (r : PacketReader π) (call : Call) :
    ∃ requests, Asked r requests (call.after r) ∧ requests.map Request.item = call.handedOut r := by
  cases call with
  | next =>
    obtain ⟨reads, hserves⟩ := r.serves_next
    exact ⟨[⟨reads, r.next.outcome⟩], .cons rfl hserves (.nil _), rfl⟩
  | iterate =>
    obtain ⟨reads, hserves⟩ := r.serves_next
    rw [handedOut, ofItem?_item?]
    exact ⟨[⟨reads, r.next.outcome⟩], .cons rfl hserves (.nil _), rfl⟩
  | process consumer state =>
    obtain ⟨_, requests, hasked, hprocessed⟩ := r.asked_processAll consumer state []
    exact ⟨requests, hasked, hprocessed.symm⟩

end Call

section Calls

def afterAll (r : PacketReader π) : List Call → PacketReader π
  | [] => r
  | call :: rest => (call.after r).afterAll rest

def handedOutAll (r : PacketReader π) : List Call → List (Except Error (Option Packet))
  | [] => []
  | call :: rest => call.handedOut r ++ (call.after r).handedOutAll rest

theorem asked_afterAll (r : PacketReader π) (calls : List Call) :
    ∃ requests, Asked r requests (r.afterAll calls) ∧
      requests.map Request.item = r.handedOutAll calls := by
  induction calls generalizing r with
  | nil => exact ⟨[], .nil _, rfl⟩
  | cons call rest ih =>
    obtain ⟨requests, hasked, hitems⟩ := call.asked_after r
    obtain ⟨requestsRest, haskedRest, hitemsRest⟩ := ih (call.after r)
    refine ⟨requests ++ requestsRest, hasked.append haskedRest, ?_⟩
    rw [List.map_append, hitems, hitemsRest]
    rfl

/-- Whatever calls are made on a reader, they ask for one item after the other, and the reader reads from its source
one chunk after the other. What it owed and what these reads contribute is what it hands out, in order, followed by
what it owes in the end. A request that finds something owed hands out the first of it and touches neither the source
nor the parser; and wherever one reads, the requests before it have handed out all that was owed and contributed
before that read. A new reader owes nothing. -/
theorem handedOut_in_order (r : PacketReader π) (calls : List Call) :
    ∃ requests count,
      Asked r requests (r.afterAll calls) ∧
      requests.map Request.item = r.handedOutAll calls ∧
      r.source.readMany r.room count =
        (requests.flatMap Request.reads, (r.afterAll calls).source) ∧
      (r.afterAll calls).parser = parserAfterAll r.parser (requests.flatMap Request.reads) ∧
      r.owed ++ contributions r.parser (requests.flatMap Request.reads) =
        r.handedOutAll calls ++ (r.afterAll calls).owed ∧
      ∀ front request back, requests = front ++ request :: back →
        ∃ asked, Asked r front asked ∧ Asked asked (request :: back) (r.afterAll calls) ∧
          (∀ item rest, asked.owed = item :: rest →
            request = ⟨[], item⟩ ∧ asked.next.outcome = item ∧ asked.next.reader.owed = rest ∧
              asked.next.reader.source = asked.source ∧ asked.next.reader.parser = asked.parser) ∧
          ∀ first outcome last, request.reads = first ++ outcome :: last →
            front.map Request.item =
              r.owed ++ contributions r.parser (front.flatMap Request.reads ++ first) := by
  obtain ⟨requests, hasked, hitems⟩ := r.asked_afterAll calls
  obtain ⟨count, hcount⟩ := hasked.exists_readMany
  refine ⟨requests, count, hasked, hitems, hcount, hasked.parser_eq, ?_, ?_⟩
  · rw [← hitems]
    exact hasked.owed_eq
  · rintro front request back rfl
    obtain ⟨asked, hfront, hback⟩ := hasked.split
    refine ⟨asked, hfront, hback, ?_, ?_⟩
    · intro item rest howed
      cases hback with
      | cons hitem serves _ =>
        have hreads := serves.reads_eq_nil (by simp [howed])
        have hnext := next_of_owed howed
        refine ⟨?_, hnext⟩
        rw [← hnext.1, hitem, ← hreads]
    · intro first outcome last hreads
      cases hback with
      | cons _ serves _ => exact hfront.of_read serves hreads

end Calls

end PacketReader

end PacketCodec
