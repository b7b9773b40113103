import PacketCodec.Proofs.Framing.Calls

/-!
# Parsers with a limit

A limit is looked at only when what is left is not a whole packet, so it never changes which packets a step hands
over. It decides how the step ends: too much that is left is dropped, where a parser without a limit would wait. A
parser with a limit therefore takes the steps of one without, up to the first step that leaves too much.
-/

namespace PacketCodec

namespace Parser

/-- The parser with a limit on what it holds. -/
def within (p : Parser) (limit : Nat) : Parser :=
  { p with limit := some limit }

variable {σ : Type} {p p' : Parser} {limit : Nat}

theorem overflow?_within (p : Parser) (limit : Nat) : (p.within limit).overflow? =
    if limit < p.pending.length then some (.bufferOverflow p.pending.length limit) else none :=
  rfl

theorem await_within_of_le (h : p.pending.length ≤ limit) :
    (p.within limit).await = ⟨p.within limit, .ok none, []⟩ := by
  rw [await, overflow?_within, if_neg (Nat.not_lt_of_le h)]

theorem await_within_of_lt (h : limit < p.pending.length) :
    (p.within limit).await = (p.within limit).discard (.bufferOverflow p.pending.length limit) := by
  rw [await, overflow?_within, if_pos h]

theorem next_within_of_waits (h : p.next = ⟨p, .ok none, []⟩) :
    (p.within limit).next = (p.within limit).await := by
  cases judged p.packetType p.pending with
  | whole packet hd hz => cases (next_of_decode hd hz).1.symm.trans (congrArg Pull.outcome h)
  | faulty cause hj => cases (congrArg Pull.outcome (hj p.limit)).symm.trans (congrArg Pull.outcome h)
  | lacking hj => exact hj (some limit)

theorem next_within_of_discard {cause : Error} (hfree : p.limit = none) (h : p.next = p.discard cause) :
    (p.within limit).next = (p.within limit).discard cause := by
  have houtcome : p.next.outcome = .error (.discarded p.pending cause) := congrArg Pull.outcome h
  cases judged p.packetType p.pending with
  | whole packet hd hz => cases (next_of_decode hd hz).1.symm.trans houtcome
  | faulty cause' hj =>
    cases (congrArg Pull.outcome (hj p.limit)).symm.trans houtcome
    exact hj (some limit)
  | lacking hj =>
    have hover : p.overflow? = none := by rw [overflow?, hfree]
    have hwait : p.next = p.await := hj p.limit
    rw [await, hover] at hwait
    cases (congrArg Pull.outcome hwait).symm.trans houtcome

/-- How a step ends with a limit, next to how it ends without one. -/
inductive EndsLike (limit : Nat) (free : Parser) : Except Error Unit → Parser → Except Error Unit → Prop
  | fails (e : Error) (hp : free.pending = []) :
      EndsLike limit free (.error e) (free.within limit) (.error e)
  | fits (hle : free.pending.length ≤ limit) :
      EndsLike limit free (.ok ()) (free.within limit) (.ok ())
  | overflows (hlt : limit < free.pending.length) :
      EndsLike limit free (.ok ()) (free.within limit).clear
        (.error (.discarded free.pending (.bufferOverflow free.pending.length limit)))

/-- Holding no more than the limit after a step that succeeds, and nothing after one that fails. -/
def HoldsWithin (limit : Nat) (p : Parser) : Except Error Unit → Prop
  | .ok () => p.pending.length ≤ limit
  | .error _ => p.pending = []

theorem EndsLike.holdsWithin {free : Parser} {outcome outcome' : Except Error Unit}
    (h : EndsLike limit free outcome p outcome') : HoldsWithin limit p outcome' := by
  cases h with
  | fails _ hp => exact hp
  | fits hle => exact hle
  | overflows _ => rfl

/-- A step of a parser with a limit, next to the same step of one without. -/
structure StepsLike (limit : Nat) (free p : Parser) (chunk : Bytes) (consumer : Consumer σ) (state : σ) :
    Prop where
  delivered_eq : (Call.transform chunk consumer state).delivered p =
    (Call.transform chunk consumer state).delivered free
  state_eq : (p.transform chunk consumer state).consumer = (free.transform chunk consumer state).consumer
  ends : EndsLike limit (free.transform chunk consumer state).parser
    (free.transform chunk consumer state).outcome (p.transform chunk consumer state).parser
    (p.transform chunk consumer state).outcome

section Consumer

variable {consumer : Consumer σ} {state state' : σ} {packets : List Packet} {outcome : Except Error Unit}

theorem Drains.within (hc : ∀ packet state, (consumer packet state).1 = .ok ()) (hfree : p.limit = none)
    (h : Drains consumer p state packets p' state' outcome) (limit : Nat) :
    ∃ q outcome', Drains consumer (p.within limit) state packets q state' outcome' ∧
      EndsLike limit p' outcome q outcome' := by
  induction h with
  | @waits p state h =>
    have hnext : (p.within limit).next = (p.within limit).await := next_within_of_waits h
    by_cases hle : p.pending.length ≤ limit
    · exact ⟨_, _, .waits (hnext.trans (await_within_of_le hle)), .fits hle⟩
    · have hlt := Nat.lt_of_not_le hle
      exact ⟨_, _, .discards _ (hnext.trans (await_within_of_lt hlt)), .overflows hlt⟩
  | discards cause h =>
    exact ⟨_, _, .discards cause (next_within_of_discard hfree h), .fails _ rfl⟩
  | refused _ _ hrefuse => cases (congrArg Prod.fst hrefuse).symm.trans (hc _ _)
  | takes hd hz haccept _ ih =>
    obtain ⟨q, outcome', hrest, hends⟩ := ih hfree
    exact ⟨q, outcome', .takes hd hz haccept hrest, hends⟩

theorem exists_drains_within (hc : ∀ packet state, (consumer packet state).1 = .ok ())
    (hfree : p.limit = none) (limit : Nat) (chunk : Bytes) (state : σ) :
    ∃ packets p' state' outcome q outcome',
      Drains consumer (p.feed chunk) state packets p' state' outcome ∧
        Drains consumer ((p.within limit).feed chunk) state packets q state' outcome' ∧
        EndsLike limit p' outcome q outcome' := by
  obtain ⟨packets, p', state', outcome, h⟩ := exists_drains consumer (p.feed chunk) state
  obtain ⟨q, outcome', hlimited, hends⟩ := Drains.within (p := p.feed chunk) hc hfree h limit
  exact ⟨packets, p', state', outcome, q, outcome', h, hlimited, hends⟩

theorem stepsLike_within (hc : ∀ packet state, (consumer packet state).1 = .ok ()) (hfree : p.limit = none)
    (limit : Nat) (chunk : Bytes) (state : σ) :
    StepsLike limit p (p.within limit) chunk consumer state := by
  obtain ⟨packets, p', state', outcome, q, outcome', h, hlimited, hends⟩ :=
    exists_drains_within hc hfree limit chunk state
  have hstep : (p.transform chunk consumer state).result = (p', state', outcome) := h.result
  have hstep' : ((p.within limit).transform chunk consumer state).result = (q, state', outcome') :=
    hlimited.result
  simp only [Step.result, Prod.mk.injEq] at hstep hstep'
  obtain ⟨hparser, hstate, houtcome⟩ := hstep
  obtain ⟨hparser', hstate', houtcome'⟩ := hstep'
  refine ⟨?_, hstate'.trans hstate.symm, ?_⟩
  · rw [(Call.transform_of_drains h).2.2, (Call.transform_of_drains hlimited).2.2]
  · rw [hparser, houtcome, hparser', houtcome']
    exact hends

/-- As long as no step of a parser with a limit fails, it goes along with one without a limit. -/
theorem transformAll_within (hc : ∀ packet state, (consumer packet state).1 = .ok ())
    (hfree : p.limit = none) (limit : Nat) (chunks : List Bytes) (state : σ)
    (h : ((p.within limit).transformAll consumer chunks state).outcome = .ok ()) :
    ∃ p' state', p'.limit = none ∧ (p.transformAll consumer chunks state).result = (p', state', .ok ()) ∧
      ((p.within limit).transformAll consumer chunks state).result = (p'.within limit, state', .ok ()) := by
  induction chunks generalizing p state with
  | nil => exact ⟨p, state, hfree, rfl, rfl⟩
  | cons chunk rest ih =>
    obtain ⟨packets, p', state', outcome, q, outcome', hdrains, hlimited, hends⟩ :=
      exists_drains_within hc hfree limit chunk state
    have hstep : ((p.within limit).transform chunk consumer state).result = (q, state', outcome') :=
      hlimited.result
    -- A step that fails would have ended the run.
    have hfails {e : Error} (he : outcome' = .error e) : False := by
      rw [he] at hstep
      have hrun : ((p.within limit).transformAll consumer (chunk :: rest) state).outcome = .error e :=
        congrArg (fun result => result.2.2) (result_transformAll_error rest hstep)
      cases h.symm.trans hrun
    cases hends with
    | fails e _ => exact (hfails rfl).elim
    | overflows _ => exact (hfails rfl).elim
    | fits _ =>
      have hrun := result_transformAll_ok rest hstep
      have hrun' := result_transformAll_ok rest (p := p) hdrains.result
      have hok : ((p'.within limit).transformAll consumer rest state').outcome = .ok () :=
        (congrArg (fun result => result.2.2) hrun).symm.trans h
      obtain ⟨p'', state'', hfree', hfirst, hsecond⟩ := ih (hdrains.limit_eq.trans hfree) state' hok
      exact ⟨p'', state'', hfree', hrun'.trans hfirst, hrun.trans hsecond⟩

end Consumer

/-- A parser with a limit takes the steps of one without, for as long as no step fails, and its next step differs
at most in its end. Whatever it holds before a step, afterwards it holds no more than the limit, and nothing when
the step fails. -/
theorem refines_unbounded (t : PacketType) (limit : Nat) {consumer : Consumer σ}
    (hc : ∀ packet state, (consumer packet state).1 = .ok ()) (chunks : List Bytes) (chunk : Bytes) (state : σ)
    (h : (transformAll ⟨t, some limit, []⟩ consumer chunks state).outcome = .ok ()) :
    let run := transformAll ⟨t, some limit, []⟩ consumer chunks state
    let free := transformAll ⟨t, none, []⟩ consumer chunks state
    (free.outcome = .ok () ∧ run.parser.pending = free.parser.pending ∧ run.consumer = free.consumer ∧
      StepsLike limit free.parser run.parser chunk consumer run.consumer) ∧
    ∀ pending state, HoldsWithin limit (transform ⟨t, some limit, pending⟩ chunk consumer state).parser
      (transform ⟨t, some limit, pending⟩ chunk consumer state).outcome := by
  intro run free
  refine ⟨?_, fun pending state => ?_⟩
  · obtain ⟨p', state', hfree, hfirst, hsecond⟩ :=
      transformAll_within (p := ⟨t, none, []⟩) hc rfl limit chunks state h
    have hparser : free.parser = p' := congrArg Prod.fst hfirst
    have hparser' : run.parser = p'.within limit := congrArg Prod.fst hsecond
    have hstate : free.consumer = state' := congrArg (fun result => result.2.1) hfirst
    have hstate' : run.consumer = state' := congrArg (fun result => result.2.1) hsecond
    refine ⟨congrArg (fun result => result.2.2) hfirst, ?_, hstate'.trans hstate.symm, ?_⟩
    · rw [hparser, hparser']
      rfl
    · rw [hparser, hparser']
      exact stepsLike_within hc hfree limit chunk run.consumer
  · exact (stepsLike_within (p := ⟨t, none, pending⟩) hc rfl limit chunk state).ends.holdsWithin

section Message

private def begun (limit : Option Nat) : Step Parser (List Packet) :=
  transformAll ⟨.ofCodec .message, limit, []⟩ collect [[1, 1, 2, 97]] []

private def completed : Packet :=
  ⟨.record [("kind", .uint 1), ("names", .array [.string "ab"]), ("body", .uint 7)], 7⟩

/-- The message that was begun is completed and handed over, though with what follows it there are fourteen bytes;
the seven that are left are one too many. -/
theorem message_refines_unbounded :
    (∀ packet packets, (collect packet packets).1 = .ok ()) ∧ (begun (some 6)).outcome = .ok () ∧
      (begun none).outcome = .ok () ∧
      StepsLike 6 (begun none).parser (begun (some 6)).parser [98, 0, 7, 1, 1, 5, 97, 98, 99, 100] collect
        (begun (some 6)).consumer ∧
      ((begun (some 6)).parser.transform [98, 0, 7, 1, 1, 5, 97, 98, 99, 100] collect
        (begun (some 6)).consumer).result = (⟨.ofCodec .message, some 6, []⟩, [completed],
          .error (.discarded [1, 1, 5, 97, 98, 99, 100] (.bufferOverflow 7 6))) := by
  have hc : ∀ packet packets, (collect packet packets).1 = .ok () := fun _ _ => rfl
  have hwaits : Drains collect ⟨.ofCodec .message, some 6, [1, 1, 2, 97]⟩ [] []
      ⟨.ofCodec .message, some 6, [1, 1, 2, 97]⟩ [] (.ok ()) :=
    .waits rfl
  have hbegun : (begun (some 6)).result = (⟨.ofCodec .message, some 6, [1, 1, 2, 97]⟩, [], .ok ()) :=
    result_transformAll_ok [] hwaits.result
  have hdrops : Drains collect
      ⟨.ofCodec .message, some 6, [1, 1, 2, 97, 98, 0, 7, 1, 1, 5, 97, 98, 99, 100]⟩ [] [completed]
      ⟨.ofCodec .message, some 6, []⟩ [completed]
      (.error (.discarded [1, 1, 5, 97, 98, 99, 100] (.bufferOverflow 7 6))) :=
    .takes rfl (by decide) rfl (.discards _ rfl)
  simp only [Step.result, Prod.mk.injEq] at hbegun
  obtain ⟨hparser, hstate, hok⟩ := hbegun
  obtain ⟨⟨hfree, -, -, hsteps⟩, -⟩ := refines_unbounded (.ofCodec .message) 6 hc [[1, 1, 2, 97]]
    [98, 0, 7, 1, 1, 5, 97, 98, 99, 100] [] hok
  refine ⟨hc, hok, hfree, hsteps, ?_⟩
  rw [hparser, hstate]
  exact hdrops.result

end Message

end Parser

end PacketCodec
