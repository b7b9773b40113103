import PacketCodec.Proofs.Codec.Echoes
import PacketCodec.Proofs.Codec.ResolvedOnce

/-!
# The branches that writing and reading choose

A switch is written under the key of its discriminant in the whole record, as the caller gave it, and read
under its key in the fields before it, as they were read. Both sides choose the same branch unless a
discriminant finds a number above the signed range under an integer of variable length, and its switch has a
branch for it or for the one that it is read as. This discriminant may be that of the switch itself or of one
in the fields up to the one it names, for a switch that is read as another branch shifts everything behind it.
-/

namespace PacketCodec

/-- A discriminant is a constant, or its path starts with one of some names. -/
def Discriminant.StartsAmong (names : List String) : Discriminant → Prop
  | .constant _ => True
  | .field path => ∃ first rest, Path.segments path = first :: rest ∧ first ≠ ".." ∧ first ∈ names

namespace Codec

variable {scope full : Scope} {value : Value} {bs buf : Bytes} {offset : Nat} {d : Decoded}

/-- A switch among the fields of a container is written under a key: the key of its discriminant in the whole
record. -/
def WrittenUnder (on : Discriminant) (scope : Scope) (value : Value) (key : String) : Prop :=
  ∃ record, value = .record record ∧ on.key (record :: scope) = .ok key

/-- A switch that follows the fields `front` of a container is read under a key: the key of its discriminant in
the record that these fields were read as. -/
def ReadUnder (on : Discriminant) (front : List (String × Codec)) (buf : Bytes) (scope : Scope)
    (offset : Nat) (key : String) : Prop :=
  ∃ before size, decodeFields front buf scope offset [] = .ok (before, size) ∧
    on.key (before :: scope) = .ok key

/-- The branch that a switch chooses under a key, or none where it chooses its default. -/
def branchOf (branches : List (String × Codec)) (key : String) : Option (String × Codec) :=
  (Table.get? branches key).map fun c => (key, c)

section Switch

variable {fields front middle back : List (String × Codec)} {name : String} {on : Discriminant}
  {branches : List (String × Codec)} {default : Codec} {size : Option Nat} {keys : List String}

theorem branchOf_eq {key key' : String}
    (h : key = key' ∨ key ∉ Table.names branches ∧ key' ∉ Table.names branches) :
    branchOf branches key = branchOf branches key' := by
  rcases h with rfl | ⟨hnone, hnone'⟩
  · rfl
  · rw [branchOf, branchOf, (Table.get?_eq_none_iff branches key).2 hnone,
      (Table.get?_eq_none_iff branches key').2 hnone']
    rfl

private theorem echoesAt_of_startsAmong {before done record : Record}
    (hon : on.StartsAmong (Table.names before)) (hdone : before <+: done)
    (h : ∀ path, on = .field path →
      (Value.record before).EchoesAt (.record record) keys (Path.segments path)) {path : String}
    (hp : on = .field path) :
    Scope.EchoesAt (done :: scope) (record :: full) keys (Path.segments path) := by
  subst hp
  have hecho := h path rfl
  obtain ⟨first, rest, hpath, hup, hfirst⟩ := hon
  rw [hpath, Value.EchoesAt, Scope.descend_record, Scope.descend_record] at hecho
  rw [hpath, Scope.EchoesAt, Scope.resolve, Scope.resolve, if_neg hup, if_neg hup]
  -- The field is there before the others are read, and they do not hide it.
  cases hfound : Table.get? before first with
  | none => exact absurd hfirst ((Table.get?_eq_none_iff before first).1 hfound)
  | some v =>
    rw [hfound] at hecho
    rw [Table.get?_of_prefix hdone hfound]
    exact hecho

/-- In any two scopes, a switch that was written among the fields of a container is read as the branch that it was
written as, as long as the fields up to the one that its discriminant names are read without a mistake and it does
not find a number that the keys of the switch tell from the one that it is read as. -/
theorem readUnder_of_decode
    (hf : fields = front ++ middle ++ (name, .switch on branches default size) :: back)
    (hon : on.StartsAmong (Table.names front))
    (hs : ∀ keys segments, (container front).Asks full value keys segments →
      scope.EchoesAt full keys segments)
    (hin : ¬ (container front).Mistaken full value)
    (hread : ∀ path i, on = .field path → (container front).Misread full value (Path.segments path) i →
      ¬ Told (Table.names branches) i)
    (hw : ((container fields).emit full value).Writes bs) (hb : bs.StandAt buf offset)
    (h : (container fields).decode buf scope offset = .ok d) :
    ∃ key key', WrittenUnder on full value key ∧ ReadUnder on (front ++ middle) buf scope offset key' ∧
      branchOf branches key = branchOf branches key' := by
  obtain ⟨record, rfl, hfields⟩ := writes_container hw
  obtain ⟨done, n, hd, rfl⟩ := decode_container_eq_ok.1 h
  rw [hf, emitFields_append, emitFields_append] at hfields
  obtain ⟨_, behind, hbefore, hbehind, rfl⟩ := hfields.of_append
  obtain ⟨first, _, hfirst, _, rfl⟩ := hbefore.of_append
  obtain ⟨chosen, _, hchosen, _, rfl⟩ := writes_emitFields_cons hbehind
  rw [hf] at hd
  obtain ⟨between, m, _, hbetween, hrest, _⟩ := decodeFields_append_eq_ok.1 hd
  obtain ⟨before, _, _, hfront, hmiddle, _⟩ := decodeFields_append_eq_ok.1 hbetween
  obtain ⟨item, _, hi, _, _⟩ := decodeFields_cons_eq_ok.1 hrest
  obtain ⟨_, hechoes⟩ := echoes_of_decodeFields (fun _ hm => hm)
    (fun _ _ _ _ _ _ hs hin hw hb h => echoes_of_decode hs hin hw hb h) hs hin
    (fun keys names _ => Value.echoesAt_empty (.record record) keys names) hfirst hb.left.left hfront
  have hnamed : on.StartsAmong (Table.names before) := by
    rwa [names_of_decodeFields hfront]
  obtain ⟨key', key, hkey', hkey, hsame, _⟩ := alternative_of_decode
    (fun _ => echoesAt_of_startsAmong hnamed (prefix_of_decodeFields hmiddle)
      fun path hp => hechoes _ _ fun i => hread path i hp) hchosen hi
  exact ⟨key, key', ⟨record, rfl, hkey⟩, ⟨between, m, hbetween, hkey'⟩, (branchOf_eq hsame).symm⟩

/-- What a container with a switch is encoded by is decoded, if at all, with the branch of the switch that
encoding chose. The fields `front` reach at least to the one that the discriminant of the switch names: no
discriminant in them and not that of the switch may find a number that is read as another one, unless the switch
that asks has a branch for neither of the two. -/
theorem Compiled.same_branch (h : (container fields).Compiled)
    (hf : fields = front ++ middle ++ (name, .switch on branches default size) :: back)
    (hon : on.StartsAmong (Table.names front))
    (he : (PacketType.ofCodec (container fields)).encode value = .ok bs)
    (hin : ¬ (container front).Mistaken [] value)
    (hread : ∀ path i, on = .field path → (container front).Misread [] value (Path.segments path) i →
      ¬ Told (Table.names branches) i)
    {packet : Packet} (hd : (PacketType.ofCodec (container fields)).decode bs = .ok packet) :
    ∃ key key', WrittenUnder on [] value key ∧ ReadUnder on (front ++ middle) bs [] 0 key' ∧
      branchOf branches key = branchOf branches key' := by
  have hw := PacketType.writes_of_encode h.wellBuilt he
  obtain ⟨d, hd, _⟩ := Except.bind_eq_ok.1 hd
  have hb : bs.StandAt bs 0 := ⟨[], [], by simp, rfl⟩
  have hs : ∀ keys segments, (container front).Asks [] value keys segments →
      Scope.EchoesAt [] [] keys segments := fun keys segments _ => by
    cases segments <;> exact SameBranch.of_none rfl
  exact readUnder_of_decode hf hon hs hin hread hw hb hd

end Switch

section Tagged

open Compile

def taggedBranches : List (String × Codec) :=
  [("4294967295", .scalar .u8), ("-1", .scalar .bool)]

/-- A number of variable length and a body that depends on it. -/
def tagged : Codec :=
  .container [("kind", .scalar .varint),
    ("body", .ofBranches (.field "kind") taggedBranches (.scalar .void))]

private def taggedMembers : List (Field Schema) :=
  [⟨"kind", .primitive .varint, false⟩,
    ⟨"body", .switch (.field "kind")
      [("4294967295", .primitive .u8), ("-1", .primitive .bool)] none, false⟩]

theorem tagged_compiled : tagged.Compiled := by
  have hflat : Schema.inlineFields taggedMembers = .ok taggedMembers := rfl
  have hlarge : BranchKey.normalize "4294967295" = "4294967295" := rfl
  have hsmall : BranchKey.normalize "-1" = "-1" := rfl
  refine ⟨[], {}, .container taggedMembers, .new, ?_⟩
  rw [Registry.compile, compileIn_container [] [] hflat]
  simp only [taggedMembers, compileFieldsIn, compileIn, compileIn_switch, compileBranchesIn,
    compileDefaultIn, hlarge, hsmall, List.mem_cons, List.not_mem_nil]
  rfl

private theorem decode_negative (bits : Nat) (i : Int64) {buf : Bytes} {scope : Scope} {offset : Nat}
    (hi : Int64.ofInt (Varint.toInt bits) = i) (h : Varint.read buf offset = .ok (bits, 5)) :
    (scalar .varint).decode buf scope offset = .ok ⟨.int i, 5⟩ := by
  apply decode_scalar_eq_ok.2
  rw [Primitive.scalar, Scalar.read, h, ← hi]
  rfl

private theorem decodeFields_kind (b : UInt8) :
    decodeFields [("kind", .scalar .varint)] [255, 255, 255, 255, 15, b] [] 0 [] =
      .ok ([("kind", .int (-1))], 5) :=
  decodeFields_cons_eq_ok.2 ⟨_, _, decode_negative 4294967295 (-1) rfl rfl, rfl, rfl⟩

private theorem decode_tagged (b : UInt8) :
    (PacketType.ofCodec tagged).decode [255, 255, 255, 255, 15, b] =
      .ok ⟨.record [("kind", .int (-1)), ("body", .bool ([b] != [0]))], 6⟩ := by
  have hfields : decodeFields ([("kind", .scalar .varint)] ++
      [("body", .ofBranches (.field "kind") taggedBranches (.scalar .void))])
      [255, 255, 255, 255, 15, b] [] 0 [] =
        .ok ([("kind", .int (-1)), ("body", .bool ([b] != [0]))], 6) :=
    decodeFields_append_eq_ok.2 ⟨_, _, _, decodeFields_kind b, rfl, rfl⟩
  exact Except.bind_eq_ok.2 ⟨_, decode_container_eq_ok.2 ⟨_, _, hfields, rfl⟩, rfl⟩

/-- A number of 32 bits above the signed range is written and read under different keys, and its body is
read as another branch than it was written as. -/
theorem tagged_branch_differs :
    tagged.Compiled ∧
      (PacketType.ofCodec tagged).encode
        (.record [("kind", .uint 4294967295), ("body", .uint 7)]) = .ok [255, 255, 255, 255, 15, 7] ∧
      (PacketType.ofCodec tagged).decode [255, 255, 255, 255, 15, 7] =
        .ok ⟨.record [("kind", .int (-1)), ("body", .bool true)], 6⟩ ∧
      WrittenUnder (.field "kind") [] (.record [("kind", .uint 4294967295), ("body", .uint 7)])
        "4294967295" ∧
      alternative taggedBranches (.scalar .void) "4294967295" = .scalar .u8 ∧
      ReadUnder (.field "kind") [("kind", .scalar .varint)] [255, 255, 255, 255, 15, 7] [] 0 "-1" ∧
      alternative taggedBranches (.scalar .void) "-1" = .scalar .bool ∧
      ¬ ∃ key key',
        WrittenUnder (.field "kind") [] (.record [("kind", .uint 4294967295), ("body", .uint 7)])
          key ∧
        ReadUnder (.field "kind") [("kind", .scalar .varint)] [255, 255, 255, 255, 15, 7] [] 0
          key' ∧
        branchOf taggedBranches key = branchOf taggedBranches key' := by
  have hwritten : Discriminant.key (.field "kind")
      [[("kind", .uint 4294967295), ("body", .uint 7)]] = .ok "4294967295" := rfl
  have hread : Discriminant.key (.field "kind") [[("kind", .int (-1))]] = .ok "-1" := rfl
  have hfront := decodeFields_kind 7
  refine ⟨tagged_compiled, rfl, decode_tagged 7, ⟨_, rfl, hwritten⟩, rfl, ⟨_, _, hfront, hread⟩,
    rfl, ?_⟩
  rintro ⟨key, key', ⟨record, hr, hk⟩, ⟨before, n, hb, hk'⟩, hsame⟩
  cases hr
  cases hfront.symm.trans hb
  obtain rfl : "4294967295" = key := Except.ok.inj (hwritten.symm.trans hk)
  obtain rfl : "-1" = key' := Except.ok.inj (hread.symm.trans hk')
  have hkeys : "4294967295" = "-1" := congrArg Prod.fst (Option.some.inj hsame)
  exact absurd hkeys (by decide)

/-- A number of variable length in front, which nothing depends on. -/
def totalled : Codec :=
  .container [("total", .scalar .varint), ("kind", .scalar .varint),
    ("body", .ofBranches (.field "kind") taggedBranches (.scalar .void))]

theorem totalled_compiled : totalled.Compiled := by
  have hflat : Schema.inlineFields (⟨"total", .primitive .varint, false⟩ :: taggedMembers) =
      .ok (⟨"total", .primitive .varint, false⟩ :: taggedMembers) := rfl
  have hlarge : BranchKey.normalize "4294967295" = "4294967295" := rfl
  have hsmall : BranchKey.normalize "-1" = "-1" := rfl
  refine ⟨[], {}, .container (⟨"total", .primitive .varint, false⟩ :: taggedMembers), .new, ?_⟩
  rw [Registry.compile, compileIn_container [] [] hflat]
  simp only [taggedMembers, compileFieldsIn, compileIn, compileIn_switch, compileBranchesIn,
    compileDefaultIn, hlarge, hsmall, List.mem_cons, List.not_mem_nil]
  rfl

private def totalledOfOther : Record :=
  [("total", .uint 4294967295), ("kind", .uint 4294967294), ("body", .null)]

private theorem decode_totalled :
    (PacketType.ofCodec totalled).decode [255, 255, 255, 255, 15, 254, 255, 255, 255, 15] =
      .ok ⟨.record [("total", .int (-1)), ("kind", .int (-2)), ("body", .null)], 10⟩ := by
  have hfields : decodeFields [("total", .scalar .varint), ("kind", .scalar .varint),
      ("body", .ofBranches (.field "kind") taggedBranches (.scalar .void))]
      [255, 255, 255, 255, 15, 254, 255, 255, 255, 15] [] 0 [] =
        .ok ([("total", .int (-1)), ("kind", .int (-2)), ("body", .null)], 10) :=
    decodeFields_cons_eq_ok.2 ⟨_, _, decode_negative 4294967295 (-1) rfl rfl,
      decodeFields_cons_eq_ok.2 ⟨_, _, decode_negative 4294967294 (-2) rfl rfl, rfl, rfl⟩, rfl⟩
  exact Except.bind_eq_ok.2 ⟨_, decode_container_eq_ok.2 ⟨_, _, hfields, rfl⟩, rfl⟩

private theorem totalled_not_mistaken :
    ¬ (container [("total", .scalar .varint), ("kind", .scalar .varint)]).Mistaken []
      (.record totalledOfOther) := by
  have hscalar {p : Primitive} {scope : Scope} {value : Value} :
      ¬ (scalar p).Mistaken scope value := fun h => by
    cases h with
    | next hn _ => cases hn
  have hasks {p : Primitive} {scope : Scope} {value : Value} {keys segments : List String} :
      ¬ (scalar p).Asks scope value keys segments := fun h => by
    cases h with
    | count hc _ => cases hc
    | next hn _ => cases hn
  have hfields : ∀ field ∈ [("total", Codec.scalar .varint), ("kind", .scalar .varint)],
      field.2 = .scalar .varint := by simp
  intro h
  cases h with
  | here hf hask _ _ _ =>
    rw [hfields _ hf] at hask
    exact hasks hask
  | next hn h =>
    cases hn with
    | field hf =>
      rw [hfields _ hf] at h
      exact hscalar h

private theorem totalled_not_told {i : Int}
    (h : (container [("total", .scalar .varint), ("kind", .scalar .varint)]).Misread []
      (.record totalledOfOther) (Path.segments "kind") i) : ¬ Told ["4294967295", "-1"] i := by
  have hpath : Path.segments "kind" = ["kind"] := rfl
  rw [hpath] at h
  obtain ⟨c, hf, h⟩ := h.of_field
  obtain rfl : c = .scalar .varint := by simpa using hf
  cases h with
  | scalar hlarge =>
    have hi : (4294967294 : Int) = i := Option.some.inj hlarge.1
    subst hi
    decide

/-- Two numbers are read as others: the total, which nothing depends on, and the kind, for which the body has no
branch either way. -/
theorem totalled_same_branch :
    totalled.Compiled ∧
      Discriminant.StartsAmong ["total", "kind"] (.field "kind") ∧
      (PacketType.ofCodec totalled).encode (.record totalledOfOther) =
        .ok [255, 255, 255, 255, 15, 254, 255, 255, 255, 15] ∧
      ¬ (container [("total", .scalar .varint), ("kind", .scalar .varint)]).Mistaken []
        (.record totalledOfOther) ∧
      (∀ path i, Discriminant.field "kind" = .field path →
        (container [("total", .scalar .varint), ("kind", .scalar .varint)]).Misread []
          (.record totalledOfOther) (Path.segments path) i → ¬ Told ["4294967295", "-1"] i) ∧
      (PacketType.ofCodec totalled).decode [255, 255, 255, 255, 15, 254, 255, 255, 255, 15] =
        .ok ⟨.record [("total", .int (-1)), ("kind", .int (-2)), ("body", .null)], 10⟩ ∧
      ∃ key key', WrittenUnder (.field "kind") [] (.record totalledOfOther) key ∧
        ReadUnder (.field "kind") [("total", .scalar .varint), ("kind", .scalar .varint)]
          [255, 255, 255, 255, 15, 254, 255, 255, 255, 15] [] 0 key' ∧
        branchOf taggedBranches key = branchOf taggedBranches key' := by
  have hon : Discriminant.StartsAmong ["total", "kind"] (.field "kind") :=
    ⟨"kind", [], rfl, by decide, by decide⟩
  have hread : ∀ path i, Discriminant.field "kind" = .field path →
      (container [("total", .scalar .varint), ("kind", .scalar .varint)]).Misread []
        (.record totalledOfOther) (Path.segments path) i → ¬ Told ["4294967295", "-1"] i := by
    intro path i hp h
    cases hp
    exact totalled_not_told h
  have hfields : [("total", Codec.scalar .varint), ("kind", .scalar .varint),
      ("body", .ofBranches (.field "kind") taggedBranches (.scalar .void))] =
        [("total", .scalar .varint), ("kind", .scalar .varint)] ++ [] ++
          [("body", .ofBranches (.field "kind") taggedBranches (.scalar .void))] := rfl
  have hencode : (PacketType.ofCodec totalled).encode (.record totalledOfOther) =
      .ok [255, 255, 255, 255, 15, 254, 255, 255, 255, 15] := rfl
  exact ⟨totalled_compiled, hon, hencode, totalled_not_mistaken, hread, decode_totalled,
    Compiled.same_branch totalled_compiled hfields hon hencode totalled_not_mistaken hread
      decode_totalled⟩

end Tagged

end Codec

end PacketCodec
