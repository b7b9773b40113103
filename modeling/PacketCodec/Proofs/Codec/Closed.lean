import PacketCodec.Proofs.Codec.Measure
import PacketCodec.Proofs.Scope

/-!
# Closed codecs

A switch looks into the containers around it, and a path that steps out of containers may lead out of all
those of a codec. In a closed codec no path does, so what is around the codec does not matter: the same bytes
are decoded to the same value, and the same value is measured and encoded alike, wherever the codec stands.
-/

namespace PacketCodec

namespace Path

/-- The number of records that segments step out of before they name anything. -/
def stepsOut (segments : List String) : Nat :=
  (segments.takeWhile (· = "..")).length

/-- The number of records that a path steps out of before it names anything. -/
def ups (path : String) : Nat :=
  stepsOut (segments path)

end Path

theorem Scope.resolve_append {frames : Scope} {segments : List String}
    (h : Path.stepsOut segments < frames.length) (outer outer' : Scope) :
    resolve (frames ++ outer) segments = resolve (frames ++ outer') segments := by
  induction frames generalizing segments with
  | nil => cases h
  | cons frame frames ih =>
    cases segments with
    | nil => rfl
    | cons name rest =>
      simp only [List.cons_append, resolve]
      by_cases hup : name = ".."
      · rw [if_pos hup, if_pos hup]
        apply ih
        subst hup
        simp only [Path.stepsOut, List.takeWhile_cons, decide_true, if_true, List.length_cons] at h ⊢
        omega
      · rw [if_neg hup, if_neg hup]

theorem Discriminant.key_append {on : Discriminant} {frames : Scope}
    (h : ∀ path, on = .field path → Path.ups path < frames.length) (outer outer' : Scope) :
    on.key (frames ++ outer) = on.key (frames ++ outer') := by
  have hvalue : on.value (frames ++ outer) = on.value (frames ++ outer') := by
    cases on with
    | constant v => rfl
    | field path =>
      have hlookup : Scope.lookup (frames ++ outer) path = Scope.lookup (frames ++ outer') path :=
        Scope.resolve_append (h path rfl) outer outer'
      simp only [value, hlookup]
  rw [key, key, hvalue]

namespace Codec

/-- The number of records that a codec puts around its parts. Only a container has a record. -/
def level : Codec → Nat
  | .container _ => 1
  | _ => 0

/-- There is a switch on a discriminant in a codec, under a number of containers of the codec. -/
inductive SwitchesUnder : Codec → Nat → Discriminant → Prop
  | here {on : Discriminant} {branches : List (String × Codec)} {default : Codec}
      {size : Option Nat} : SwitchesUnder (.switch on branches default size) 0 on
  | inside {c d : Codec} {containers : Nat} {on : Discriminant} (hd : d ∈ c.parts)
      (h : SwitchesUnder d containers on) : SwitchesUnder c (containers + c.level) on

/-- Every path that selects a branch steps out of fewer records than the containers that it is under, `depth`
of them around the codec. -/
def ClosedUnder (depth : Nat) (c : Codec) : Prop :=
  ∀ containers path, c.SwitchesUnder containers (.field path) → Path.ups path < containers + depth

/-- Every path that selects a branch in the codec is under more containers of the codec than it steps
out of. -/
def Closed (c : Codec) : Prop :=
  ∀ containers path, c.SwitchesUnder containers (.field path) → Path.ups path < containers

namespace ClosedUnder

variable {depth : Nat} {c d : Codec}

theorem part (h : c.ClosedUnder depth) (hd : d ∈ c.parts) : d.ClosedUnder (depth + c.level) := by
  intro containers path hs
  have hlt := h _ path (.inside hd hs)
  omega

theorem field {fields : List (String × Codec)} (h : (Codec.container fields).ClosedUnder depth)
    {field : String × Codec} (hf : field ∈ fields) : field.2.ClosedUnder (depth + 1) :=
  h.part (List.mem_map_of_mem hf)

theorem ups_lt {on : Discriminant} {branches : List (String × Codec)} {default : Codec}
    {size : Option Nat} (h : (Codec.switch on branches default size).ClosedUnder depth) (path : String)
    (hon : on = .field path) : Path.ups path < depth := by
  subst hon
  have hlt := h 0 path .here
  rwa [Nat.zero_add] at hlt

theorem intro (hself : ∀ on branches default size path, c = .switch on branches default size →
      on = .field path → Path.ups path < depth)
    (hparts : ∀ d ∈ c.parts, d.ClosedUnder (depth + c.level)) : c.ClosedUnder depth := by
  intro containers path hs
  cases hs with
  | here =>
    rw [Nat.zero_add]
    exact hself _ _ _ _ path rfl rfl
  | inside hd h =>
    have hlt := hparts _ hd _ path h
    omega

theorem scalar (p : Primitive) : (Codec.scalar p).ClosedUnder depth :=
  .intro (fun _ _ _ _ _ hc => nomatch hc) fun _ hd => nomatch hd

theorem container {fields : List (String × Codec)}
    (h : ∀ field ∈ fields, field.2.ClosedUnder (depth + 1)) :
    (Codec.container fields).ClosedUnder depth := by
  refine .intro (fun _ _ _ _ _ hc => nomatch hc) fun d hd => ?_
  obtain ⟨field, hf, rfl⟩ := List.mem_map.1 hd
  exact h field hf

end ClosedUnder

/-- A codec acts the same way in two scopes. -/
structure ActsAlike (c : Codec) (scope scope' : Scope) : Prop where
  decode : ∀ buf offset, c.decode buf scope offset = c.decode buf scope' offset
  emit : ∀ value, c.emit scope value = c.emit scope' value

section Fields

variable {fields : List (String × Codec)} {frames outer outer' : Scope}

private theorem decodeFields_actsAlike
    (ih : ∀ field ∈ fields, ∀ record : Record,
      field.2.ActsAlike (record :: frames ++ outer) (record :: frames ++ outer'))
    (buf : Bytes) (offset : Nat) (record : Record) :
    decodeFields fields buf (frames ++ outer) offset record =
      decodeFields fields buf (frames ++ outer') offset record := by
  induction fields generalizing offset record with
  | nil => rfl
  | cons field rest ihRest =>
    obtain ⟨name, c⟩ := field
    have hc := (ih (name, c) List.mem_cons_self record).decode buf offset
    have hrest := ihRest fun field hf => ih field (List.mem_cons_of_mem _ hf)
    simp only [decodeFields, hrest]
    rw [← List.cons_append, hc, List.cons_append]

private theorem emitFields_actsAlike
    (ih : ∀ field ∈ fields, ∀ record : Record,
      field.2.ActsAlike (record :: frames ++ outer) (record :: frames ++ outer'))
    (record : Record) :
    emitFields fields (frames ++ outer) record = emitFields fields (frames ++ outer') record := by
  induction fields with
  | nil => rfl
  | cons field rest ihRest =>
    obtain ⟨name, c⟩ := field
    have hc := (ih (name, c) List.mem_cons_self record).emit (fieldValue record name)
    have hrest := ihRest fun field hf => ih field (List.mem_cons_of_mem _ hf)
    rw [emitFields, emitFields, hrest, ← List.cons_append, hc, List.cons_append]

end Fields

/-- A codec that is closed under some records does not look behind them. -/
theorem ClosedUnder.actsAlike {c : Codec} :
    ∀ {frames : Scope}, c.ClosedUnder frames.length → ∀ outer outer' : Scope,
      c.ActsAlike (frames ++ outer) (frames ++ outer') := by
  induction c with
  | scalar p =>
    intro frames h outer outer'
    exact ⟨fun _ _ => rfl, fun _ => rfl⟩
  | text count ih =>
    intro frames h outer outer'
    have hcount := ih (h.part List.mem_cons_self) outer outer'
    exact ⟨fun buf offset => by simp only [Codec.decode, hcount.decode],
      fun value => by simp only [Codec.emit, hcount.emit]⟩
  | block length =>
    intro frames h outer outer'
    exact ⟨fun _ _ => rfl, fun _ => rfl⟩
  | countedBlock count ih =>
    intro frames h outer outer'
    have hcount := ih (h.part List.mem_cons_self) outer outer'
    exact ⟨fun buf offset => by simp only [Codec.decode, hcount.decode],
      fun value => by simp only [Codec.emit, hcount.emit]⟩
  | option inner ih =>
    intro frames h outer outer'
    have hinner := ih (h.part List.mem_cons_self) outer outer'
    refine ⟨fun buf offset => by simp only [Codec.decode, hinner.decode], fun value => ?_⟩
    cases value <;> simp only [Codec.emit, hinner.emit]
  | array element length ih =>
    intro frames h outer outer'
    have helement := ih (h.part List.mem_cons_self) outer outer'
    exact ⟨fun buf offset => by simp only [Codec.decode, helement.decode],
      fun value => by simp only [Codec.emit, helement.emit]⟩
  | countedArray count element ihCount ihElement =>
    intro frames h outer outer'
    have hcount := ihCount (h.part List.mem_cons_self) outer outer'
    have helement := ihElement (h.part (List.mem_cons_of_mem _ List.mem_cons_self)) outer outer'
    exact ⟨fun buf offset => by simp only [Codec.decode, hcount.decode, helement.decode],
      fun value => by simp only [Codec.emit, hcount.emit, helement.emit]⟩
  | container fields ih =>
    intro frames h outer outer'
    -- A field stands in one record more, the one of the container.
    have hfields : ∀ field ∈ fields, ∀ record : Record,
        field.2.ActsAlike (record :: frames ++ outer) (record :: frames ++ outer') := by
      intro field hf record
      have hfield : field.2.ClosedUnder (record :: frames).length := h.field hf
      exact ih field hf hfield outer outer'
    exact ⟨fun buf offset => by simp only [Codec.decode, decodeFields_actsAlike hfields],
      fun value => by simp only [Codec.emit, emitFields_actsAlike hfields]⟩
  | switch on branches default size ihBranches ihDefault =>
    intro frames h outer outer'
    have hkey := Discriminant.key_append h.ups_lt outer outer'
    have halt (key : String) :
        (alternative branches default key).ActsAlike (frames ++ outer) (frames ++ outer') :=
      alternative_of_forall
        (P := fun d => d.ClosedUnder frames.length → d.ActsAlike (frames ++ outer) (frames ++ outer'))
        (fun branch hb hw => ihBranches branch hb hw outer outer')
        (fun hw => ihDefault hw outer outer') key (h.part (alternative_mem branches default key))
    exact ⟨fun buf offset => by simp only [decode_switch, hkey, (halt _).decode],
      fun value => by simp only [emit_switch, hkey, (halt _).emit]⟩

/-- What is around a closed codec changes nothing about what it decodes, measures and encodes, or which
errors it meets. -/
theorem Closed.ignores_scope {c : Codec} (hc : c.Compiled) (h : c.Closed) (scope scope' : Scope) :
    (∀ buf offset, c.decode buf scope offset = c.decode buf scope' offset) ∧
      (∀ value, c.measure scope value = c.measure scope' value) ∧
      ∀ value dest offset, c.encode scope value dest offset = c.encode scope' value dest offset := by
  have hunder : c.ClosedUnder ([] : Scope).length := h
  have hsame := hunder.actsAlike scope scope'
  refine ⟨hsame.decode, fun value => ?_, fun value dest offset => ?_⟩
  · rw [measure_eq_size hc.wellBuilt, measure_eq_size hc.wellBuilt]
    exact congrArg Emission.size (hsame.emit value)
  · rw [encode, encode]
    exact congrArg (Emission.place · dest offset) (hsame.emit value)

section Envelope

open Compile

/-- A kind, and a body whose content depends on the kind around it. -/
def envelope : Codec :=
  .container
    [("kind", .scalar .u8),
      ("body", .container
        [("content", .ofBranches (.field "./../kind") [("1", .scalar .u16)] (.scalar .void))])]

private def bodyMembers : List (Field Schema) :=
  [⟨"content", .switch (.field "./../kind") [("1", .primitive .u16)] none, false⟩]

private def envelopeMembers : List (Field Schema) :=
  [⟨"kind", .primitive .u8, false⟩, ⟨"body", .container bodyMembers, false⟩]

theorem envelope_compiled : envelope.Compiled := by
  have hflat : Schema.inlineFields envelopeMembers = .ok envelopeMembers := rfl
  have hbody : Schema.inlineFields bodyMembers = .ok bodyMembers := rfl
  have hone : BranchKey.normalize "1" = "1" := rfl
  refine ⟨[], {}, .container envelopeMembers, .new, ?_⟩
  rw [Registry.compile, compileIn_container [] [] hflat]
  simp only [envelopeMembers, compileFieldsIn, compileIn, compileIn_container [] [] hbody]
  simp only [bodyMembers, compileFieldsIn, compileIn, compileIn_switch, compileBranchesIn,
    compileDefaultIn, hone, List.not_mem_nil, if_false]
  rfl

theorem envelope_closed : envelope.Closed := by
  have hcontent : (Codec.ofBranches (.field "./../kind") [("1", .scalar .u16)]
      (.scalar .void)).ClosedUnder 2 := by
    refine .intro (fun on branches default size path hc hon => ?_) fun d hd => ?_
    · cases hc
      cases hon
      decide
    · simp only [ofBranches, parts, List.map_cons, List.map_nil, List.mem_cons, List.not_mem_nil,
        or_false] at hd
      rcases hd with rfl | rfl <;> exact .scalar _
  have hunder : envelope.ClosedUnder 0 := by
    refine .container fun field hf => ?_
    simp only [List.mem_cons, List.not_mem_nil, or_false] at hf
    rcases hf with rfl | rfl
    · exact .scalar _
    · exact .container fun field hf => List.mem_singleton.1 hf ▸ hcontent
  exact hunder

/-- The kind of an envelope decides about its content, not the kind of what the envelope is in. -/
theorem envelope_ignores_scope :
    envelope.Compiled ∧ envelope.Closed ∧
      envelope.decode [1, 0, 7] [[("kind", .uint 2)]] 0 =
        .ok ⟨.record [("kind", .uint 1), ("body", .record [("content", .uint 7)])], 3⟩ ∧
      envelope.measure [[("kind", .uint 2)]]
        (.record [("kind", .uint 1), ("body", .record [("content", .string "ab")])]) =
        .error ⟨["body", "content"], .expectedNatural "u16" (.string "ab")⟩ ∧
      (envelope.encode [[("kind", .uint 2)]]
        (.record [("kind", .uint 1), ("body", .record [("content", .uint 7)])]) [9, 9, 9] 0).dest =
        [1, 0, 7] := by
  obtain ⟨hdecode, hmeasure, hencode⟩ :=
    Closed.ignores_scope envelope_compiled envelope_closed [[("kind", .uint 2)]] []
  refine ⟨envelope_compiled, envelope_closed, ?_, ?_, ?_⟩
  · rw [hdecode]
    rfl
  · rw [hmeasure]
    rfl
  · rw [hencode]
    rfl

end Envelope

end Codec

end PacketCodec
