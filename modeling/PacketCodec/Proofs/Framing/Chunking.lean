import PacketCodec.Framing.Parser
import PacketCodec.Proofs.Codec.Extension

/-!
# How a stream is cut into chunks

An unbounded parser that hands over all packets it can find comes to the same packets, however the stream
is cut into chunks. What it finds at the front does not change when more arrives, so the steps
over the chunks together do what one step over the whole stream does; only a fault may be met
before all of the stream is there.
-/

namespace PacketCodec

def Step.result {π σ : Type} (s : Step π σ) : π × σ × Except Error Unit :=
  (s.parser, s.consumer, s.outcome)

namespace Parser

variable {σ : Type}

/-- Takes in chunks in order, up to the first step that fails. -/
def transformAll (p : Parser) (consumer : Consumer σ) : List Bytes → σ → Step Parser σ
  | [], state => ⟨p, state, .ok (), []⟩
  | chunk :: rest, state =>
    let step := p.transform chunk consumer state
    match step.outcome with
    | .error _ => step
    | .ok () =>
      let following := step.parser.transformAll consumer rest step.consumer
      { following with events := step.events ++ following.events }

def unbounded (t : PacketType) (pending : Bytes) : Parser :=
  { packetType := t, pending }

/-- What an unbounded parser finds at the front of the bytes it has accumulated, whatever follows them. -/
inductive Front (t : PacketType) (pending : Bytes) : Prop
  | nothing (h : (unbounded t pending).next = ⟨unbounded t pending, .ok none, []⟩)
  | packet (packet : Packet) (rest : Bytes) (hlt : rest.length < pending.length)
      (h : ∀ more, (unbounded t (pending ++ more)).next.outcome = .ok (some packet) ∧
        (unbounded t (pending ++ more)).next.parser = unbounded t (rest ++ more))
  | fault (cause : DecodeError)
      (h : ∀ more, (unbounded t (pending ++ more)).next =
        (unbounded t (pending ++ more)).discard (.decode cause))

theorem front {t : PacketType} (ht : t.reader.ItemsTakeBytes) (pending : Bytes) :
    Front t pending := by
  by_cases hempty : pending = []
  · subst hempty
    exact .nothing rfl
  have hnonempty (more : Bytes) : (unbounded t (pending ++ more)).pending.isEmpty = false := by
    simp [unbounded, hempty]
  have hdecode (more : Bytes) : Anticipates (t.decode pending) (t.decode (pending ++ more)) :=
    (Codec.decode_anticipates ht pending more [] 0).bind_same
  cases hd : t.decode pending with
  | error e =>
    cases e with
    | incomplete needed available =>
      refine .nothing ?_
      simp [next, unbounded, hempty, hd, overflow?]
    | invalid e =>
      refine .fault e fun more => ?_
      have hmore := hdecode more
      rw [hd] at hmore
      generalize hlate : t.decode (pending ++ more) = late at hmore
      cases hmore
      simp [next, unbounded, hempty, hlate]
  | ok packet =>
    have hmore (more : Bytes) : t.decode (pending ++ more) = .ok packet := by
      have hmore := hdecode more
      rw [hd] at hmore
      generalize t.decode (pending ++ more) = late at hmore ⊢
      cases hmore
      rfl
    by_cases hz : packet.size = 0
    · refine .fault (.here .emptyPacket) fun more => ?_
      simp [next, unbounded, hempty, hmore more, hz]
    · have hcovers : packet.size ≤ pending.length := by
        obtain ⟨d, hd', h⟩ := Except.bind_eq_ok.1 hd
        cases h
        rcases Codec.covers_of_decode hd' with h | h
        · exact absurd h hz
        · simpa using h
      refine .packet packet (pending.drop packet.size) ?_ fun more => ?_
      · rw [List.length_drop]
        omega
      · simp [next, unbounded, hempty, hmore more, hz, List.drop_append_of_le_length hcovers]

section Drain

variable {t : PacketType} {consumer : Consumer σ}

theorem result_drain_nothing {p : Parser} (h : p.next = ⟨p, .ok none, []⟩) (state : σ) :
    (p.drain consumer state).result = (p, state, .ok ()) := by
  rw [drain]
  split
  · rename_i e he
    rw [h] at he
    cases he
  · rw [h]
    rfl
  · rename_i packet hp
    rw [h] at hp
    cases hp

theorem result_drain_packet {p rest : Parser} {packet : Packet} {state state' : σ}
    (h : p.next.outcome = .ok (some packet)) (hrest : p.next.parser = rest)
    (hc : consumer packet state = (.ok (), state')) :
    (p.drain consumer state).result = (rest.drain consumer state').result := by
  rw [drain]
  split
  · rename_i e he
    cases h.symm.trans he
  · rename_i hn
    cases h.symm.trans hn
  · rename_i packet' hp
    cases h.symm.trans hp
    simp only [hc, hrest]
    rfl

theorem result_drain_discard {p : Parser} {cause : Error} (h : p.next = p.discard cause) (state : σ) :
    (p.drain consumer state).result = (p.clear, state, .error (.discarded p.pending cause)) := by
  rw [drain]
  split
  · rename_i e he
    rw [h] at he ⊢
    cases he
    rfl
  · rename_i hn
    rw [h] at hn
    cases hn
  · rename_i packet hp
    rw [h] at hp
    cases hp

/-- What draining comes to when more follows: it goes on from where it would have stopped, or it drops
what follows, too. -/
inductive Drained (t : PacketType) (consumer : Consumer σ) (pending : Bytes) (state : σ) : Prop
  | rests (rest : Bytes) (state' : σ)
      (quiet : (unbounded t rest).next = ⟨unbounded t rest, .ok none, []⟩)
      (h : ∀ more, ((unbounded t (pending ++ more)).drain consumer state).result =
        ((unbounded t (rest ++ more)).drain consumer state').result)
  | fails (dropped : Bytes) (cause : DecodeError) (state' : σ)
      (h : ∀ more, ((unbounded t (pending ++ more)).drain consumer state).result =
        (unbounded t [], state', .error (.discarded (dropped ++ more) (.decode cause))))

theorem drained (ht : t.reader.ItemsTakeBytes)
    (hc : ∀ packet state, (consumer packet state).1 = .ok ()) (pending : Bytes) (state : σ) :
    Drained t consumer pending state := by
  -- A packet takes bytes, so the induction is on how many are left.
  induction hn : pending.length using Nat.strongRecOn generalizing pending state with
  | _ n ih =>
    cases front ht pending with
    | nothing h => exact .rests pending state h fun _ => rfl
    | fault cause h =>
      refine .fails pending cause state fun more => ?_
      rw [result_drain_discard (h more)]
      rfl
    | packet packet rest hlt h =>
      have hstep (more : Bytes) : ((unbounded t (pending ++ more)).drain consumer state).result =
          ((unbounded t (rest ++ more)).drain consumer (consumer packet state).2).result :=
        result_drain_packet (h more).1 (h more).2 (Prod.ext (hc packet state) rfl)
      cases ih rest.length (hn ▸ hlt) rest (consumer packet state).2 rfl with
      | rests rest' state' quiet hr =>
        exact .rests rest' state' quiet fun more => (hstep more).trans (hr more)
      | fails dropped cause state' hr =>
        exact .fails dropped cause state' fun more => (hstep more).trans (hr more)

end Drain

section Run

variable {t : PacketType} {consumer : Consumer σ}

theorem result_transformAll_ok {p p' : Parser} {chunk : Bytes} {state state' : σ} (rest : List Bytes)
    (h : (p.transform chunk consumer state).result = (p', state', .ok ())) :
    (p.transformAll consumer (chunk :: rest) state).result =
      (p'.transformAll consumer rest state').result := by
  have hp : (p.transform chunk consumer state).parser = p' := congrArg Prod.fst h
  have hs : (p.transform chunk consumer state).consumer = state' := congrArg (fun r => r.2.1) h
  have ho : (p.transform chunk consumer state).outcome = .ok () := congrArg (fun r => r.2.2) h
  simp only [transformAll, ho, hp, hs]
  rfl

theorem result_transformAll_error {p p' : Parser} {chunk : Bytes} {state state' : σ} {e : Error}
    (rest : List Bytes)
    (h : (p.transform chunk consumer state).result = (p', state', .error e)) :
    (p.transformAll consumer (chunk :: rest) state).result = (p', state', .error e) := by
  have ho : (p.transform chunk consumer state).outcome = .error e := congrArg (fun r => r.2.2) h
  simp only [transformAll, ho]
  exact h

/-- What a run over chunks comes to, next to one step over all of them. -/
inductive RunsLike (t : PacketType) (run whole : Step Parser σ) : Prop
  | rests (rest : Bytes) (state : σ) (hr : run.result = (unbounded t rest, state, .ok ()))
      (hw : whole.result = (unbounded t rest, state, .ok ()))
  | fails (dropped more : Bytes) (cause : DecodeError) (state : σ)
      (hr : run.result = (unbounded t [], state, .error (.discarded dropped (.decode cause))))
      (hw : whole.result =
        (unbounded t [], state, .error (.discarded (dropped ++ more) (.decode cause))))

theorem transformAll_runsLike (ht : t.reader.ItemsTakeBytes)
    (hc : ∀ packet state, (consumer packet state).1 = .ok ()) (chunks : List Bytes)
    (pending : Bytes) (quiet : (unbounded t pending).next = ⟨unbounded t pending, .ok none, []⟩)
    (state : σ) :
    RunsLike t ((unbounded t pending).transformAll consumer chunks state)
      ((unbounded t (pending ++ chunks.flatten)).drain consumer state) := by
  induction chunks generalizing pending state with
  | nil =>
    refine .rests pending state rfl ?_
    rw [List.flatten_nil, List.append_nil]
    exact result_drain_nothing quiet state
  | cons chunk rest ih =>
    rw [List.flatten_cons, ← List.append_assoc]
    cases drained ht hc (pending ++ chunk) state with
    | rests rest' state' quiet' h =>
      have hstep : ((unbounded t pending).transform chunk consumer state).result =
          (unbounded t rest', state', .ok ()) := by
        have hdrain := h []
        simp only [List.append_nil] at hdrain
        exact hdrain.trans (result_drain_nothing quiet' state')
      have hrun := result_transformAll_ok rest hstep
      have hwhole := h rest.flatten
      cases ih rest' quiet' state' with
      | rests last state'' hr hw => exact .rests last state'' (hrun.trans hr) (hwhole.trans hw)
      | fails dropped more cause state'' hr hw =>
        exact .fails dropped more cause state'' (hrun.trans hr) (hwhole.trans hw)
    | fails dropped cause state' h =>
      have hstep : ((unbounded t pending).transform chunk consumer state).result =
          (unbounded t [], state', .error (.discarded dropped (.decode cause))) := by
        have hdrain := h []
        simp only [List.append_nil] at hdrain
        exact hdrain
      have hrun := result_transformAll_error rest hstep
      exact .fails dropped rest.flatten cause state' hrun (h rest.flatten)

/-- Two runs come to the same packets, and to the same rest or to the same fault. Of what they drop at
a fault, the less is a prefix of the more. -/
def Agree (run run' : Step Parser σ) : Prop :=
  run.consumer = run'.consumer ∧
    ((run.outcome = .ok () ∧ run'.outcome = .ok () ∧ run.parser.pending = run'.parser.pending) ∨
      ∃ cause dropped dropped', run.outcome = .error (.discarded dropped (.decode cause)) ∧
        run'.outcome = .error (.discarded dropped' (.decode cause)) ∧
        (dropped <+: dropped' ∨ dropped' <+: dropped))

/-- The runs of a new unbounded parser agree, however a stream is cut into chunks. -/
theorem agree_of_flatten_eq (ht : t.reader.ItemsTakeBytes)
    (hc : ∀ packet state, (consumer packet state).1 = .ok ()) (state : σ)
    {chunks chunks' : List Bytes} (h : chunks.flatten = chunks'.flatten) :
    Agree (({ packetType := t } : Parser).transformAll consumer chunks state)
      (({ packetType := t } : Parser).transformAll consumer chunks' state) := by
  have hrun := transformAll_runsLike ht hc chunks [] rfl state
  have hrun' := transformAll_runsLike ht hc chunks' [] rfl state
  rw [← h] at hrun'
  cases hrun with
  | rests rest state' hr hw =>
    cases hrun' with
    | rests rest' state'' hr' hw' =>
      have hresult := (hr.trans hw.symm).trans (hw'.trans hr'.symm)
      refine ⟨congrArg (fun r => r.2.1) hresult, .inl ⟨?_, ?_, ?_⟩⟩
      · exact congrArg (fun r => r.2.2) hr
      · exact congrArg (fun r => r.2.2) hr'
      · exact congrArg (fun r => r.1.pending) hresult
    | fails dropped more cause state'' hr' hw' => cases hw.symm.trans hw'
  | fails dropped more cause state' hr hw =>
    cases hrun' with
    | rests rest' state'' hr' hw' => cases hw.symm.trans hw'
    | fails dropped' more' cause' state'' hr' hw' =>
      have hsame := hw.symm.trans hw'
      simp only [Prod.mk.injEq, Except.error.injEq, Error.discarded.injEq, Error.decode.injEq,
        true_and] at hsame
      obtain ⟨rfl, hdropped, rfl⟩ := hsame
      refine ⟨?_, .inr ⟨cause, dropped, dropped', ?_, ?_, ?_⟩⟩
      · exact (congrArg (fun r => r.2.1) hr).trans (congrArg (fun r => r.2.1) hr').symm
      · exact congrArg (fun r => r.2.2) hr
      · exact congrArg (fun r => r.2.2) hr'
      · have hpre : dropped <+: dropped' ++ more' := ⟨more, hdropped⟩
        exact List.prefix_or_prefix_of_prefix hpre (List.prefix_append dropped' more')

theorem message_agree_of_flatten_eq : Codec.message.ItemsTakeBytes ∧
    Agree
      (({ packetType := .ofCodec .message } : Parser).transformAll collect
        [[1, 1, 2, 97], [98, 0, 7, 1, 1]] [])
      (({ packetType := .ofCodec .message } : Parser).transformAll collect
        [[1], [], [1, 2, 97, 98, 0, 7, 1], [1]] []) ∧
    Agree
      (({ packetType := .ofCodec .message } : Parser).transformAll collect
        [[1, 1, 2, 97, 255], [0, 7]] [])
      (({ packetType := .ofCodec .message } : Parser).transformAll collect
        [[1, 1, 2, 97, 255, 0, 7]] []) := by
  have hc : ∀ packet packets, (collect packet packets).1 = .ok () := fun _ _ => rfl
  refine ⟨Codec.message_itemsTakeBytes, ?_, ?_⟩
  · exact agree_of_flatten_eq Codec.message_itemsTakeBytes hc [] rfl
  · exact agree_of_flatten_eq Codec.message_itemsTakeBytes hc [] rfl

end Run

end Parser

end PacketCodec
