import PacketCodec.Proofs.Compile.Becomes

/-!
# Distinct branch keys

The branches of a switch that compiles have distinct keys, hexadecimal ones being read as numbers. This
holds of every switch that a schema declares, at any depth and through references, except an anonymous one:
its keys are compared for each name in turn, so that two branches may have the same key as long as no name
has a type from both.
-/

namespace PacketCodec

namespace Schema

variable {reg : Registry} {s t : Schema} {branches : List (String × Schema)} {name key : String}

/-- A schema declares another one as a part of its own, where inlining does not lose it. For a container
these are the types of its named members, of the members of its anonymous containers, and of its anonymous
switches whatever a member that they are inlined to may have for a type. -/
inductive Declares (reg : Registry) : Schema → Schema → Prop
  /-- What any other schema than a container leads to, its references included. -/
  | part {s t : Schema} (hs : ∀ fields, s ≠ .container fields) (h : Uses reg s t) : Declares reg s t
  | named {fields : List (Field Schema)} {field : Field Schema} (hf : field ∈ fields)
      (hn : field.anonymous = false) : Declares reg (.container fields) field.type
  | spliced {fields members : List (Field Schema)} {label : String} {field : Field Schema}
      (hf : ⟨label, .container members, true⟩ ∈ fields) (hm : field ∈ members) :
      Declares reg (.container fields) field.type
  /-- The first member of its name in a container branch of an anonymous switch. -/
  | branchMember {fields members : List (Field Schema)} {label key : String} {on : Discriminant}
      {branches : List (String × Schema)} {default : Option Schema} {field : Field Schema}
      (hf : ⟨label, .switch on branches default, true⟩ ∈ fields)
      (hb : (key, .container members) ∈ branches)
      (hm : members.find? (fun other => other.name == field.name) = some field) :
      Declares reg (.container fields) field.type
  /-- Another branch of an anonymous switch, if a container branch has a member. -/
  | branch {fields : List (Field Schema)} {label key : String} {on : Discriminant}
      {branches : List (String × Schema)} {default : Option Schema} {type : Schema}
      (hf : ⟨label, .switch on branches default, true⟩ ∈ fields) (hb : (key, type) ∈ branches)
      (ht : ∀ members, type ≠ .container members) (hn : switchNames branches ≠ []) :
      Declares reg (.container fields) type
  | default {fields : List (Field Schema)} {label : String} {on : Discriminant}
      {branches : List (String × Schema)} {type : Schema}
      (hf : ⟨label, .switch on branches (some type), true⟩ ∈ fields)
      (hn : switchNames branches ≠ []) : Declares reg (.container fields) type

theorem WellFormed.of_uses (h : WellFormed reg s) (hu : Uses reg s t) : WellFormed reg t := by
  cases h with
  | registered h hb =>
    cases hu with
    | body h' => cases h.symm.trans h'; exact hb
  | builtIn h =>
    cases hu with
    | body h' => cases h.symm.trans h'
  | primitive => cases hu
  | text h => cases hu; exact h
  | block => cases hu
  | countedBlock h => cases hu; exact h
  | option h => cases hu; exact h
  | array _ h => cases hu; exact h
  | countedArray ht he =>
    cases hu with
    | element => exact he
    | arrayCount => exact ht
  | container h hf =>
    cases hu with
    | member h' hm => cases h.symm.trans h'; exact hf _ hm
  | switch _ hb hd =>
    cases hu with
    | branch hm => exact hb _ hm
    | default => exact hd _ rfl

private theorem WellFormed.transposed {fields : List (Field Schema)} {label : String}
    {on : Discriminant} {default : Option Schema} (h : WellFormed reg (.container fields))
    (hf : ⟨label, .switch on branches default, true⟩ ∈ fields) (hn : name ∈ switchNames branches) :
    WellFormed reg (.switch on (branchesFor name branches) default) := by
  cases h with
  | container hflat hall => exact hall _ (mem_of_transposed hflat hf hn)

theorem WellFormed.of_declares (h : WellFormed reg s) (hd : Declares reg s t) :
    WellFormed reg t := by
  cases hd with
  | part _ hu => exact h.of_uses hu
  | named hf hn =>
    cases h with
    | container hflat hall => exact hall _ (mem_of_named hflat hf hn)
  | spliced hf hm =>
    cases h with
    | container hflat hall => exact hall _ (mem_of_spliced hflat hf hm)
  | branchMember hf hb hm =>
    have hn := mem_switchNames.2 ⟨_, hb, List.mem_map_of_mem (List.mem_of_find?_eq_some hm)⟩
    exact (h.transposed hf hn).of_uses (.branch (mem_branchesFor_of_member hb hm))
  | branch hf hb ht hn =>
    obtain ⟨name, hn⟩ := List.exists_mem_of_ne_nil _ hn
    exact (h.transposed hf hn).of_uses (.branch (mem_branchesFor_of_whole hb ht name))
  | default hf hn =>
    obtain ⟨name, hn⟩ := List.exists_mem_of_ne_nil _ hn
    exact (h.transposed hf hn).of_uses (.default _ _ _)

/-- A type has something for a member of a name: a container if it has such a member, anything else
itself. -/
def HasFor (name : String) : Schema → Prop
  | .container members => ∃ member ∈ members, member.name = name
  | _ => True

private theorem mem_branchKeys (hb : (key, t) ∈ branches) :
    BranchKey.normalize key ∈ branchKeys branches :=
  List.mem_map.2 ⟨(key, t), hb, rfl⟩

private theorem mem_branchKeys_branchesFor (hb : (key, t) ∈ branches) (ht : t.HasFor name) :
    BranchKey.normalize key ∈ branchKeys (branchesFor name branches) := by
  by_cases hc : ∃ members, t = .container members
  · obtain ⟨members, rfl⟩ := hc
    obtain ⟨member, hm, hname⟩ := ht
    cases hfind : members.find? fun other => other.name == name with
    | none => exact absurd (beq_iff_eq.2 hname) (List.find?_eq_none.1 hfind member hm)
    | some field => exact mem_branchKeys (mem_branchesFor_of_member hb hfind)
  · exact mem_branchKeys (mem_branchesFor_of_whole hb (fun members h => hc ⟨members, h⟩) name)

private theorem pairwise_of_nodup (h : (branchKeys (branchesFor name branches)).Nodup) :
    branches.Pairwise fun a b => a.2.HasFor name → b.2.HasFor name →
      BranchKey.normalize a.1 ≠ BranchKey.normalize b.1 := by
  have fresh {declared : String} {rest : List (String × Schema)}
      (hn : BranchKey.normalize declared ∉ branchKeys (branchesFor name rest)) :
      ∀ b ∈ rest, b.2.HasFor name → BranchKey.normalize declared ≠ BranchKey.normalize b.1 :=
    fun b hb ht heq => hn (heq ▸ mem_branchKeys_branchesFor hb ht)
  fun_induction branchesFor name branches with
  | case1 => exact .nil
  | case2 declared members rest field hf ih =>
    obtain ⟨hn, hrest⟩ := List.nodup_cons.1 h
    exact .cons (fun b hb _ => fresh hn b hb) (ih hrest)
  | case3 declared members rest hf ih =>
    refine .cons (fun b _ ha => ?_) (ih h)
    obtain ⟨member, hm, hname⟩ := ha
    exact absurd (beq_iff_eq.2 hname) (List.find?_eq_none.1 hf member hm)
  | case4 branch rest _ ih =>
    obtain ⟨hn, hrest⟩ := List.nodup_cons.1 h
    exact .cons (fun b hb _ => fresh hn b hb) (ih hrest)

end Schema

/-- Of every switch that a schema declares which compiles, the keys are distinct, and of every anonymous one
the keys of any two branches that have something for the same member. -/
theorem Registry.distinct_keys_of_compile {reg : Registry} {session : Session}
    (hs : Session.Over reg session) {s : Schema} {c : Codec}
    (hc : Compile.outcome (reg.compile s) session = .ok c) {t : Schema}
    (hd : Relation.ReflTransGen (Schema.Declares reg) s t) :
    (∀ on branches default, t = .switch on branches default → (branchKeys branches).Nodup) ∧
      ∀ fields label on branches default, t = .container fields →
        ⟨label, .switch on branches default, true⟩ ∈ fields →
          branches.Pairwise fun a b =>
            (∃ name ∈ Schema.switchNames branches, a.2.HasFor name ∧ b.2.HasFor name) →
              BranchKey.normalize a.1 ≠ BranchKey.normalize b.1 := by
  have hw : t.WellFormed reg := by
    induction hd with
    | refl => exact ((Registry.compile_eq_ok_iff hs).1 hc).wellFormed
    | tail _ hlast ih => exact ih.of_declares hlast
  constructor
  · rintro on branches default rfl
    cases hw with
    | switch hk => exact hk
  · rintro fields label on branches default rfl hf
    rw [List.pairwise_iff_getElem]
    rintro i j hi hj hij ⟨name, hn, ha, hb⟩
    cases hw.transposed hf hn with
    | switch hk => exact List.pairwise_iff_getElem.1 (Schema.pairwise_of_nodup hk) i j hi hj hij ha hb

theorem Registry.report_distinct_keys :
    Compile.outcome (Registry.compile [] (.container Codec.reportMembers)) {} = .ok Codec.report ∧
      ⟨"", .switch (.field "kind") Codec.reportBranches none, true⟩ ∈ Codec.reportMembers ∧
      Codec.reportBranches.Pairwise fun a b =>
        (∃ name ∈ Schema.switchNames Codec.reportBranches, a.2.HasFor name ∧ b.2.HasFor name) →
          BranchKey.normalize a.1 ≠ BranchKey.normalize b.1 := by
  have hm : ⟨"", .switch (.field "kind") Codec.reportBranches none, true⟩ ∈ Codec.reportMembers :=
    List.mem_cons_of_mem _ List.mem_cons_self
  refine ⟨Codec.outcome_report, hm, ?_⟩
  exact (Registry.distinct_keys_of_compile .new Codec.outcome_report .refl).2 _ _ _ _ _ rfl hm

section Parcel

private def parcelBranches : List (String × Schema) :=
  [("16", .container [⟨"weight", .primitive .u8, false⟩]),
    ("0x10", .container [⟨"height", .primitive .u16, false⟩])]

private def parcelMembers : List (Field Schema) :=
  [⟨"kind", .primitive .u8, false⟩, ⟨"", .switch (.field "kind") parcelBranches none, true⟩]

private def parcelFlat : List (Field Schema) :=
  [⟨"kind", .primitive .u8, false⟩,
    ⟨"weight", .switch (.field "kind") [("16", .primitive .u8)] none, false⟩,
    ⟨"height", .switch (.field "kind") [("0x10", .primitive .u16)] none, false⟩]

private theorem parcel_wellFormed : Schema.WellFormed [] (.container parcelMembers) := by
  have single (on : Discriminant) (key : String) (p : Primitive) :
      Schema.WellFormed [] (.switch on [(key, .primitive p)] none) := by
    have hk : (branchKeys [(key, Schema.primitive p)]).Nodup := List.pairwise_singleton _ _
    refine .switch hk (fun branch hb => ?_) fun t ht => nomatch ht
    rw [List.mem_singleton.1 hb]
    exact .primitive p
  have hflat : Schema.inlineFields parcelMembers = .ok parcelFlat := rfl
  refine .container hflat fun field hf => ?_
  simp only [parcelFlat, List.mem_cons, List.not_mem_nil, or_false] at hf
  rcases hf with rfl | rfl | rfl
  · exact .primitive .u8
  · exact single _ "16" .u8
  · exact single _ "0x10" .u16

/-- A parcel compiles although its anonymous switch has two branches for the key 16, one of which is written
in hexadecimal: no member has a type from both. -/
theorem Registry.parcel_repeats_key :
    (∃ c, Compile.outcome (Registry.compile [] (.container parcelMembers)) {} = .ok c) ∧
      ⟨"", .switch (.field "kind") parcelBranches none, true⟩ ∈ parcelMembers ∧
      branchKeys parcelBranches = ["16", "16"] := by
  refine ⟨?_, List.mem_cons_of_mem _ List.mem_cons_self, rfl⟩
  exact Compile.succeeds_of_wellFormed parcel_wellFormed [] (fun _ hm => nomatch hm) {}

end Parcel

end PacketCodec
