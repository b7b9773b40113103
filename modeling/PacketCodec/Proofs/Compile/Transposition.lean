import PacketCodec.Proofs.Codec.ResolvedOnce
import PacketCodec.Proofs.Compile.Becomes
import PacketCodec.Proofs.Schema.Inlining

/-!
# What transposition keeps

An anonymous switch is compiled field by field, each field as a switch of its own over those branches
that say something about it. The fields act together as the switch was declared: its discriminant is
resolved once, in front of the first of them, and the branch of that key gives every field its type.
-/

namespace PacketCodec

namespace Schema

/-- What stands where a switch has nothing to say. -/
def defaultType (default : Option Schema) : Schema :=
  default.getD (.primitive .void)

/-- The type that a selected branch gives to a name: a container has one for each of its members and
leaves others to the default, any other branch is the type itself. -/
def typeIn (default : Option Schema) (name : String) : Schema → Schema
  | .container fields =>
    match fields.find? fun field => field.name == name with
    | some field => field.type
    | none => defaultType default
  | whole => whole

/-- The type of a name when the discriminant of a switch has the given key. -/
def typeUnder (branches : List (String × Schema)) (default : Option Schema) (key name : String) :
    Schema :=
  match branches.find? fun branch => BranchKey.normalize branch.1 == key with
  | some branch => typeIn default name branch.2
  | none => defaultType default

/-- The members that a switch comes to under a key. -/
def membersUnder (branches : List (String × Schema)) (default : Option Schema) (key : String) :
    List (Field Schema) :=
  (switchNames branches).map fun name => { name, type := typeUnder branches default key name }

section Alternative

variable {reg : Registry} {default : Option Schema} {c : Codec} {name key : String}
  {branches : List (String × Schema)} {entries : List (String × Codec)}

theorem becomes_defaultType (h : DefaultBecomes (Becomes reg) default c) :
    Becomes reg (defaultType default) c := by
  cases default with
  | none =>
    cases h
    exact .of_layer .primitive
  | some t => exact h

private theorem branchKeys_branchesFor_sublist (name : String) (branches : List (String × Schema)) :
    (branchKeys (branchesFor name branches)).Sublist (branchKeys branches) := by
  fun_induction branchesFor name branches with
  | case1 => exact List.Sublist.refl _
  | case2 key fields rest field _ ih => exact ih.cons_cons _
  | case3 key fields rest _ ih => exact ih.cons _
  | case4 branch rest _ ih => exact ih.cons_cons _

private theorem typeUnder_cons (declared : String) (s : Schema) (rest : List (String × Schema)) :
    typeUnder ((declared, s) :: rest) default key name =
      if BranchKey.normalize declared = key then typeIn default name s
      else typeUnder rest default key name := by
  by_cases hkey : BranchKey.normalize declared = key <;> simp [typeUnder, hkey]

private theorem becomes_kept {declared : String} {s : Schema} {d : Codec}
    (hs : Becomes reg (typeIn default name s) d)
    (hrest : Becomes reg (typeUnder branches default key name) (Codec.alternative entries c key)) :
    Becomes reg (typeUnder ((declared, s) :: branches) default key name)
      (Codec.alternative ((BranchKey.normalize declared, d) :: entries) c key) := by
  rw [typeUnder_cons, Codec.alternative, Table.get?_cons]
  split
  · exact hs
  · exact hrest

private theorem becomes_leftOut {declared : String} {s : Schema}
    (hfresh : BranchKey.normalize declared ∉ branchKeys branches)
    (hb : BranchesBecome (Becomes reg) (branchesFor name branches) entries)
    (hd : DefaultBecomes (Becomes reg) default c) (hs : typeIn default name s = defaultType default)
    (hrest : Becomes reg (typeUnder branches default key name) (Codec.alternative entries c key)) :
    Becomes reg (typeUnder ((declared, s) :: branches) default key name)
      (Codec.alternative entries c key) := by
  rw [typeUnder_cons]
  split
  · rename_i hkey
    have hnone : Table.get? entries key = none := by
      rw [Table.get?_eq_none_iff, hb.names_eq, ← hkey]
      exact fun hm => hfresh ((branchKeys_branchesFor_sublist name branches).subset hm)
    rw [hs, Codec.alternative, hnone]
    exact becomes_defaultType hd
  · exact hrest

private theorem becomes_alternative (hk : (branchKeys branches).Nodup)
    (hb : BranchesBecome (Becomes reg) (branchesFor name branches) entries)
    (hd : DefaultBecomes (Becomes reg) default c) :
    Becomes reg (typeUnder branches default key name) (Codec.alternative entries c key) := by
  fun_induction branchesFor name branches generalizing entries with
  | case1 =>
    cases hb
    exact becomes_defaultType hd
  | case2 declared fields rest field hf ih =>
    obtain ⟨⟨_, d⟩, others, ⟨rfl, hfield⟩, ho, rfl⟩ := List.forall₂_cons_left_iff.1 hb
    refine becomes_kept ?_ (ih (List.nodup_cons.1 hk).2 ho)
    simpa only [typeIn, hf] using hfield
  | case3 declared fields rest hf ih =>
    obtain ⟨hfresh, hrest⟩ := List.nodup_cons.1 hk
    exact becomes_leftOut hfresh hb hd (by simp only [typeIn, hf]) (ih hrest hb)
  | case4 branch rest hs ih =>
    obtain ⟨declared, s⟩ := branch
    obtain ⟨⟨_, d⟩, others, ⟨rfl, hwhole⟩, ho, rfl⟩ := List.forall₂_cons_left_iff.1 hb
    refine becomes_kept ?_ (ih (List.nodup_cons.1 hk).2 ho)
    cases s with
    | container fields => exact absurd rfl (hs declared fields)
    | _ => exact hwhole

end Alternative

section Group

variable {reg : Registry} {on : Discriminant} {branches : List (String × Schema)}
  {default : Option Schema} {names : List String} {group : List (String × Codec)}

/-- The members that a switch is transposed to become switches on its discriminant, and what these come
to under a key is what the declared switch has for their names. -/
private theorem becomes_fieldsUnder (hk : (branchKeys branches).Nodup)
    (h : MembersBecome (Becomes reg)
      (names.map fun name => { name, type := .switch on (branchesFor name branches) default }) group) :
    (∀ field ∈ group, field.2.SwitchesOn on) ∧ Table.names group = names ∧
      ∀ key, MembersBecome (Becomes reg)
        (names.map fun name => { name, type := typeUnder branches default key name })
        (Codec.fieldsUnder key group) := by
  induction names generalizing group with
  | nil =>
    cases h
    exact ⟨fun _ hm => (nomatch hm), rfl, fun _ => List.Forall₂.nil⟩
  | cons name rest ih =>
    obtain ⟨⟨_, c⟩, others, ⟨rfl, hc⟩, ho, rfl⟩ := List.forall₂_cons_left_iff.1 h
    obtain ⟨hon, hnames, hunder⟩ := ih ho
    cases hc.layer with
    | switch _ he hd =>
      refine ⟨?_, congrArg (name :: ·) hnames, fun key => ?_⟩
      · intro field hf
        rcases List.mem_cons.1 hf with rfl | hf
        · rfl
        · exact hon field hf
      · exact .cons ⟨rfl, becomes_alternative hk he hd⟩ (hunder key)

end Group

end Schema

/-- What a schema compiles to in a new session, and so in any other. -/
def Registry.CompilesTo (reg : Registry) (s : Schema) (c : Codec) : Prop :=
  Compile.outcome (reg.compile s) {} = .ok c

/-- A codec does whatever a container does that has a discriminant resolved once. -/
structure Codec.ActsAs (c : Codec) (r : ResolvedOnce) : Prop where
  decode (buf : Bytes) (scope : Scope) (offset : Nat) :
    c.decode buf scope offset = r.decode buf scope offset
  encode (scope : Scope) (value : Value) (dest : Bytes) (offset : Nat) :
    c.encode scope value dest offset = r.encode scope value dest offset
  measure (scope : Scope) (value : Value) : c.measure scope value = r.measure scope value

private theorem exists_append_of_membersBecome {R : Schema → Codec → Prop}
    {a b : List (Field Schema)} {entries : List (String × Codec)}
    (h : MembersBecome R (a ++ b) entries) :
    ∃ front back, entries = front ++ back ∧ MembersBecome R a front ∧ MembersBecome R b back := by
  induction a generalizing entries with
  | nil => exact ⟨[], entries, rfl, List.Forall₂.nil, h⟩
  | cons field rest ih =>
    obtain ⟨entry, others, hr, ho, rfl⟩ := List.forall₂_cons_left_iff.1 h
    obtain ⟨front, back, rfl, hf, hb⟩ := ih ho
    exact ⟨entry :: front, back, rfl, List.Forall₂.cons hr hf, hb⟩

/-- A container with an anonymous switch, whose keys are distinct, acts as the switch was declared: its
discriminant is resolved once, in front of its first member, and every member then has the type that the
branch of that key has for its name. -/
theorem Registry.transposed_resolved_once {reg : Registry} {session : Session}
    (hs : Session.Over reg session) {front back : List (Field Schema)} {label : String}
    {on : Discriminant} {branches : List (String × Schema)} {default : Option Schema}
    (hk : (branchKeys branches).Nodup) {c : Codec}
    (hc : Compile.outcome (reg.compile
      (.container (front ++ ⟨label, .switch on branches default, true⟩ :: back))) session = .ok c) :
    ∃ r : ResolvedOnce, r.on = on ∧ r.names = Schema.switchNames branches ∧
      (∃ members, Schema.expandAll front = .ok members ∧
        MembersBecome reg.CompilesTo members r.front) ∧
      (∀ key, MembersBecome reg.CompilesTo (Schema.membersUnder branches default key)
        (r.chosen key)) ∧
      (∃ members, Schema.expandAll back = .ok members ∧
        MembersBecome reg.CompilesTo members r.back) ∧
      c.ActsAs r := by
  have compiles : ∀ t d, t.Becomes reg d → reg.CompilesTo t d :=
    fun _ _ h => (Registry.compile_eq_ok_iff .new).2 h
  have hbuilt : c.Everywhere Codec.WellBuilt := Codec.Compiled.wellBuilt ⟨reg, session, _, hs, hc⟩
  cases ((Registry.compile_eq_ok_iff hs).1 hc).layer with
  | @container _ flat entries hflat he =>
    -- The members come from those in front, from the switch and from those behind.
    obtain ⟨flatFront, flatRest, hfront, hrest, rfl⟩ :=
      Schema.expandAll_append (Schema.expandAll_of_inlineFields hflat)
    obtain ⟨transposed, ht, hrest⟩ := Except.bind_eq_ok.1 hrest
    obtain ⟨flatBack, hback, hrest⟩ := Except.bind_eq_ok.1 hrest
    cases hrest
    obtain ⟨codecs, rest, rfl, hcodecs, he⟩ := exists_append_of_membersBecome he
    obtain ⟨group, behind, rfl, hgroup, hbehind⟩ := exists_append_of_membersBecome he
    rw [Schema.transpose_eq_ok ht] at hgroup
    obtain ⟨hon, hnames, hunder⟩ := Schema.becomes_fieldsUnder hk hgroup
    have hgroupBuilt : ∀ field ∈ group, field.2.Everywhere Codec.WellBuilt :=
      fun field hf => hbuilt.field (List.mem_append_right _ (List.mem_append_left _ hf))
    refine ⟨.ofGroup on codecs group behind, rfl, hnames, ⟨flatFront, hfront, hcodecs.imp compiles⟩,
      fun key => (hunder key).imp compiles, ⟨flatBack, hback, hbehind.imp compiles⟩, ?_⟩
    constructor
    · exact ResolvedOnce.decode_ofGroup hon
    · intro scope value dest offset
      rw [Codec.encode, ResolvedOnce.emit_ofGroup hon]
      rfl
    · exact ResolvedOnce.measure_ofGroup hgroupBuilt hon

/-- A report of kind 2 has no level and a number for its note; of kind 3 it has the same bytes for both. -/
theorem Registry.report_resolved_once :
    (branchKeys Codec.reportBranches).Nodup ∧
      Compile.outcome (Registry.compile [] (.container Codec.reportMembers)) {} = .ok Codec.report ∧
      Schema.membersUnder Codec.reportBranches none "2" =
        [⟨"level", .primitive .void, false⟩, ⟨"note", .primitive .i8, false⟩] ∧
      Schema.membersUnder Codec.reportBranches none "3" =
        [⟨"level", .buffer (some 2) none, false⟩, ⟨"note", .buffer (some 2) none, false⟩] ∧
      ∃ r : ResolvedOnce, r.on = .field "kind" ∧ r.names = ["level", "note"] ∧
        (∀ key, MembersBecome (Registry.CompilesTo [])
          (Schema.membersUnder Codec.reportBranches none key) (r.chosen key)) ∧
        Codec.report.ActsAs r := by
  have hk : (branchKeys Codec.reportBranches).Nodup := by
    have hkeys : branchKeys Codec.reportBranches = ["1", "2", "3"] := rfl
    rw [hkeys]
    decide
  have hnames : Schema.switchNames Codec.reportBranches = ["level", "note"] := by
    simp [Schema.switchNames, Codec.reportBranches, Schema.memberNames, List.eraseDups_cons]
  have hmembers (key : String) : Schema.membersUnder Codec.reportBranches none key =
      [⟨"level", Schema.typeUnder Codec.reportBranches none key "level", false⟩,
        ⟨"note", Schema.typeUnder Codec.reportBranches none key "note", false⟩] := by
    rw [Schema.membersUnder, hnames]
    rfl
  have hc : Compile.outcome (Registry.compile [] (.container ([⟨"kind", .primitive .u8, false⟩] ++
      ⟨"", .switch (.field "kind") Codec.reportBranches none, true⟩ ::
      [⟨"marks", .array (.primitive .u16) none (some (.primitive .i8)), false⟩]))) {} =
        .ok Codec.report := Codec.outcome_report
  refine ⟨hk, Codec.outcome_report, (hmembers "2").trans rfl, (hmembers "3").trans rfl, ?_⟩
  obtain ⟨r, hon, hr, _, hchosen, _, hacts⟩ := Registry.transposed_resolved_once .new hk hc
  exact ⟨r, hon, hr.trans hnames, hchosen, hacts⟩

end PacketCodec
