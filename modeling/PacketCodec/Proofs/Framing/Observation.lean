import Mathlib.Data.List.Forall2
import PacketCodec.Framing.ObservedParser
import PacketCodec.Framing.WholePacketParser
import PacketCodec.Proofs.Framing.Draining

/-!
# Observation

An observer changes nothing: a parser that is observed does in every step what the parser itself does, whatever
the consumers do and wherever they fail. What it is shown are the packets that the consumers are handed, in that
order, down to the one that a consumer fails on.

Both hold because a parser knows a consumer by its replies alone. Consumers that reply alike, whatever else they
keep, are handed the same packets.
-/

namespace PacketCodec

variable {π ρ σ τ ω : Type}

/-- Consumers reply alike in states that are related, and leave such states. -/
def Consumer.Alike (R : σ → τ → Prop) (c : Consumer σ) (d : Consumer τ) : Prop :=
  ∀ packet s t, R s t → (c packet s).1 = (d packet t).1 ∧ R (c packet s).2 (d packet t).2

/-- Steps have the same outcome and the same events, and leave parsers and consumers in states that are related. -/
structure Step.Alike (R : π → σ → ρ → τ → Prop) (s : Step π σ) (t : Step ρ τ) : Prop where
  states : R s.parser s.consumer t.parser t.consumer
  outcome : s.outcome = t.outcome
  events : s.events = t.events

theorem Step.Alike.imp {R Q : π → σ → ρ → τ → Prop} {s : Step π σ} {t : Step ρ τ} (h : s.Alike R t)
    (hRQ : ∀ p s q t, R p s q t → Q p s q t) : s.Alike Q t :=
  ⟨hRQ _ _ _ _ h.states, h.outcome, h.events⟩

namespace ChunkParser

/-- A parser makes the same step for consumers that reply alike. -/
def Uniform (π : Type) [ChunkParser π] : Prop :=
  ∀ ⦃σ τ : Type⦄ ⦃R : σ → τ → Prop⦄ ⦃c : Consumer σ⦄ ⦃d : Consumer τ⦄, c.Alike R d →
    ∀ (p : π) (chunk : Bytes) ⦃s : σ⦄ ⦃t : τ⦄, R s t →
      (transform p chunk c s).Alike (fun q s r t => q = r ∧ R s t) (transform p chunk d t)

/-- Steps one after the other, whether or not they fail, each with a chunk and a consumer of its own. -/
def run [ChunkParser π] (p : π) : List (Bytes × Consumer σ) → σ → List (Step π σ)
  | [], _ => []
  | (chunk, consumer) :: rest, state =>
    let step := transform p chunk consumer state
    step :: run step.parser rest step.consumer

theorem run_alike [ChunkParser π] [ChunkParser ρ] {R : π → σ → ρ → τ → Prop}
    {calls : List (Bytes × Consumer σ)} {calls' : List (Bytes × Consumer τ)}
    (h : List.Forall₂ (fun call call' => ∀ p s q t, R p s q t →
      (transform p call.1 call.2 s).Alike R (transform q call'.1 call'.2 t)) calls calls')
    {p : π} {q : ρ} {s : σ} {t : τ} (hR : R p s q t) :
    List.Forall₂ (Step.Alike R) (run p calls s) (run q calls' t) := by
  induction h generalizing p q s t with
  | nil => exact .nil
  | cons hstep _ ih =>
    have hfirst := hstep p s q t hR
    exact .cons hfirst (ih hfirst.states)

end ChunkParser

namespace Parser

variable {p : Parser} {state : σ}

theorem drain_of_error {e : Error} (h : p.next.outcome = .error e) (consumer : Consumer σ) :
    p.drain consumer state = ⟨p.next.parser, state, .error e, p.next.events⟩ := by
  rw [drain]
  split <;> simp_all

theorem drain_of_none (h : p.next.outcome = .ok none) (consumer : Consumer σ) :
    p.drain consumer state = ⟨p.next.parser, state, .ok (), p.next.events⟩ := by
  rw [drain]
  split <;> simp_all

theorem drain_of_packet {packet : Packet} (h : p.next.outcome = .ok (some packet))
    (consumer : Consumer σ) :
    p.drain consumer state =
      match consumer packet state with
      | (.error e, state) => ⟨p.next.parser, state, .error e, p.next.events⟩
      | (.ok (), state) =>
        let step := p.next.parser.drain consumer state
        { step with events := p.next.events ++ step.events } := by
  rw [drain]
  split
  · simp_all
  · simp_all
  · rename_i packet' h'
    cases h.symm.trans h'
    rfl

/-- Draining asks for packets, whoever takes them, so consumers that reply alike are handed the same ones. -/
theorem drain_alike {R : σ → τ → Prop} {c : Consumer σ} {d : Consumer τ} (h : c.Alike R d)
    (p : Parser) (s : σ) :
    ∀ t, R s t → (p.drain c s).Alike (fun q s r t => q = r ∧ R s t) (p.drain d t) := by
  fun_induction drain p c s with
  | case1 p s e hnext =>
    intro t hR
    rw [drain_of_error hnext]
    exact ⟨⟨rfl, hR⟩, rfl, rfl⟩
  | case2 p s hnext =>
    intro t hR
    rw [drain_of_none hnext]
    exact ⟨⟨rfl, hR⟩, rfl, rfl⟩
  | case3 p s packet hnext e s' hc =>
    intro t hR
    obtain ⟨hreply, hafter⟩ := h packet s t hR
    rw [drain_of_packet hnext]
    rw [hc] at hreply hafter
    cases hd : d packet t with
    | mk reply t' =>
      rw [hd] at hreply hafter
      cases hreply
      exact ⟨⟨rfl, hafter⟩, rfl, rfl⟩
  | case4 p s packet hnext s' hc step ih =>
    intro t hR
    obtain ⟨hreply, hafter⟩ := h packet s t hR
    rw [drain_of_packet hnext]
    rw [hc] at hreply hafter
    cases hd : d packet t with
    | mk reply t' =>
      rw [hd] at hreply hafter
      cases hreply
      have hrest := ih t' hafter
      exact ⟨hrest.states, hrest.outcome, congrArg (p.next.events ++ ·) hrest.events⟩

theorem uniform : ChunkParser.Uniform Parser :=
  fun _ _ _ _ _ h p chunk s t hR => drain_alike h (p.feed chunk) s t hR

end Parser

theorem WholePacketParser.uniform : ChunkParser.Uniform WholePacketParser := by
  intro σ τ R c d h p chunk s t hR
  change (p.transform chunk c s).Alike _ (p.transform chunk d t)
  unfold WholePacketParser.transform
  cases p.parse chunk with
  | mk parsed events =>
    cases parsed with
    | error e => exact ⟨⟨rfl, hR⟩, rfl, rfl⟩
    | ok packet =>
      obtain ⟨hreply, hafter⟩ := h packet s t hR
      exact ⟨⟨rfl, hafter⟩, hreply, rfl⟩

namespace ObservedParser

variable [ChunkParser π] {observe : Packet → ω → ω} {S : σ → ω → τ → Prop}

/-- A consumer and an observer next to another consumer: the consumers reply alike, and all three go on in states
that are related. -/
def Keeps (observe : Packet → ω → ω) (S : σ → ω → τ → Prop) (c : Consumer σ) (d : Consumer τ) : Prop :=
  ∀ packet s observer t, S s observer t →
    (c packet s).1 = (d packet t).1 ∧ S (c packet s).2 (observe packet observer) (d packet t).2

/-- An observed parser next to the parser itself, with their consumers in states that are related. -/
def Mirrors (observe : Packet → ω → ω) (S : σ → ω → τ → Prop) (o : ObservedParser π ω) (s : σ) (q : π)
    (t : τ) : Prop :=
  o.inner = q ∧ o.observe = observe ∧ S s o.observer t

theorem transform_alike (hπ : ChunkParser.Uniform π) {c : Consumer σ} {d : Consumer τ}
    (h : Keeps observe S c d) (chunk : Bytes) {o : ObservedParser π ω} {s : σ} {q : π} {t : τ}
    (hm : Mirrors observe S o s q t) :
    (ChunkParser.transform o chunk c s).Alike (Mirrors observe S) (ChunkParser.transform q chunk d t) := by
  obtain ⟨rfl, rfl, hS⟩ := hm
  -- To the inner parser, consumer and observer are one consumer.
  let both : Consumer (σ × ω) := fun packet (s, observer) =>
    ((c packet s).1, (c packet s).2, o.observe packet observer)
  have hboth : both.Alike (fun pair t => S pair.1 pair.2 t) d :=
    fun packet pair t hS => h packet pair.1 pair.2 t hS
  have hstep := hπ hboth o.inner chunk (s := (s, o.observer)) hS
  exact ⟨⟨hstep.states.1, rfl, hstep.states.2⟩, hstep.outcome, hstep.events⟩

theorem run_mirrors (hπ : ChunkParser.Uniform π) {calls : List (Bytes × Consumer σ)}
    {calls' : List (Bytes × Consumer τ)}
    (h : List.Forall₂ (fun call call' => call.1 = call'.1 ∧ Keeps observe S call.2 call'.2) calls calls')
    (p : π) (observer : ω) {s : σ} {t : τ} (hS : S s observer t) :
    List.Forall₂ (Step.Alike (Mirrors observe S))
      (ChunkParser.run (ObservedParser.mk p observe observer) calls s) (ChunkParser.run p calls' t) := by
  refine ChunkParser.run_alike (h.imp ?_) ⟨rfl, rfl, hS⟩
  rintro ⟨chunk, c⟩ ⟨_, d⟩ ⟨rfl, hkeeps⟩ o s q t hm
  exact transform_alike hπ hkeeps chunk hm

/-- Whatever parser is observed and however, over every sequence of steps: the steps are those of the parser
itself, and after each of them the observer has been shown what the consumers have been handed. -/
structure Transparent (π : Type) [ChunkParser π] : Prop where
  unaltered {σ ω : Type} (p : π) (observe : Packet → ω → ω) (observer : ω)
    (calls : List (Bytes × Consumer σ)) (state : σ) :
    List.Forall₂ (Step.Alike fun o s q t =>
        o.inner = q ∧ ChunkParser.buffered o = ChunkParser.buffered q ∧ s = t)
      (ChunkParser.run (ObservedParser.mk p observe observer) calls state) (ChunkParser.run p calls state)
  shown {σ ω : Type} (p : π) (observe : Packet → ω → ω) (observer : ω)
    (calls : List (Bytes × Consumer σ)) (state : σ) :
    List.Forall₂ (Step.Alike fun o s q t =>
        o.inner = q ∧ s.1 = t ∧ o.observer = s.2.foldl (fun seen packet => observe packet seen) observer)
      (ChunkParser.run (ObservedParser.mk p observe observer)
        (calls.map fun call => (call.1, Parser.noting call.2)) (state, []))
      (ChunkParser.run p calls state)

theorem transparent_of_uniform (hπ : ChunkParser.Uniform π) : Transparent π where
  unaltered {σ _} p observe observer calls state := by
    have hcalls : List.Forall₂ (fun call call' => call.1 = call'.1 ∧
        Keeps observe (fun s _ t => s = t) call.2 call'.2) calls calls := by
      refine List.forall₂_same.2 fun call _ => ⟨rfl, ?_⟩
      rintro packet s observer _ rfl
      exact ⟨rfl, rfl⟩
    refine (run_mirrors hπ hcalls p observer rfl).imp fun step step' h => h.imp ?_
    rintro ⟨_, _, _⟩ s _ _ ⟨rfl, _, rfl⟩
    exact ⟨rfl, rfl, rfl⟩
  shown {σ _} p observe observer calls state := by
    let tells : σ × List Packet → _ → σ → Prop := fun s seen t =>
      s.1 = t ∧ seen = s.2.foldl (fun seen packet => observe packet seen) observer
    have hcalls : List.Forall₂ (fun call call' => call.1 = call'.1 ∧ Keeps observe tells call.2 call'.2)
        (calls.map fun call => (call.1, Parser.noting call.2)) calls := by
      refine List.forall₂_map_left_iff.2 (List.forall₂_same.2 fun call _ => ⟨rfl, ?_⟩)
      rintro packet ⟨s, handed⟩ _ _ ⟨rfl, rfl⟩
      exact ⟨rfl, rfl, by simp [Parser.noting]⟩
    refine (run_mirrors (S := tells) hπ hcalls p observer ⟨rfl, rfl⟩).imp fun step step' h => h.imp ?_
    rintro o s q t ⟨hinner, _, htells⟩
    exact ⟨hinner, htells⟩

/-- Observing either parser changes nothing but what the observer knows, and it is shown every packet that a
consumer is handed, also one that the consumer fails on. -/
theorem observing_alters_nothing : Transparent Parser ∧ Transparent WholePacketParser :=
  ⟨transparent_of_uniform Parser.uniform, transparent_of_uniform WholePacketParser.uniform⟩

end ObservedParser

end PacketCodec
