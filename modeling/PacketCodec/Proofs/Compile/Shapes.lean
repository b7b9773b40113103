import Mathlib.Logic.Relation
import PacketCodec.Proofs.Codec.Inversion
import PacketCodec.Proofs.Compile.Selection
import PacketCodec.Proofs.Schema.NormalForm

/-!
# The records of decoded values

A container compiles as its inlined members do. What is decoded has, in the place of every container, a record
with the names of the inlined members of that container, in their order and each once.
-/

namespace PacketCodec

/-- Neither an array nor a record. -/
def Value.IsLeaf : Value → Prop
  | .array _ => False
  | .record _ => False
  | _ => True

/-- A record stands somewhere in a value. -/
inductive Value.Holds (record : Record) : Value → Prop
  | self : Holds record (.record record)
  | item {items : List Value} {item : Value} (hm : item ∈ items) (h : Holds record item) :
      Holds record (.array items)
  | field {fields : Record} {entry : String × Value} (hm : entry ∈ fields)
      (h : Holds record entry.2) : Holds record (.record fields)

namespace Schema

/-- A value has the shape of a schema. In the place of a container stands a record that has the names of the
inlined members, each once, and for each of them a value of its shape. -/
inductive Shapes (reg : Registry) : Schema → Value → Prop
  | registered {name : String} {body : Schema} {value : Value}
      (h : Table.get? reg name = some body) (hb : Shapes reg body value) : Shapes reg (.ref name) value
  | builtIn {name : String} {value : Value} (h : Table.get? reg name = none) (hv : value.IsLeaf) :
      Shapes reg (.ref name) value
  | primitive {p : Primitive} {value : Value} (hv : value.IsLeaf) : Shapes reg (.primitive p) value
  | text {countType : Schema} (s : String) : Shapes reg (.text countType) (.string s)
  | buffer {count : Option UInt64} {countType : Option Schema} (bs : Bytes) :
      Shapes reg (.buffer count countType) (.bytes bs)
  | absent {inner : Schema} : Shapes reg (.option inner) .null
  | present {inner : Schema} {value : Value} (h : Shapes reg inner value) :
      Shapes reg (.option inner) value
  | array {element : Schema} {count : Option UInt64} {countType : Option Schema} {items : List Value}
      (h : ∀ item ∈ items, Shapes reg element item) : Shapes reg (.array element count countType) (.array items)
  | container {fields flat : List (Field Schema)} {record : Record} (h : inlineFields fields = .ok flat)
      (hnames : Table.names record = flat.map Field.name) (hdistinct : (Table.names record).Nodup)
      (hvalues : ∀ pair ∈ flat.zip record, Shapes reg pair.1.type pair.2.2) :
      Shapes reg (.container fields) (.record record)
  | branch {on : Discriminant} {branches : List (String × Schema)} {default : Option Schema}
      {branch : String × Schema} {value : Value} (hm : branch ∈ branches)
      (h : Shapes reg branch.2 value) : Shapes reg (.switch on branches default) value
  | default {on : Discriminant} {branches : List (String × Schema)} {type : Schema} {value : Value}
      (h : Shapes reg type value) : Shapes reg (.switch on branches (some type)) value
  | noBranch {on : Discriminant} {branches : List (String × Schema)} :
      Shapes reg (.switch on branches none) .null

end Schema

/-- Whatever a codec decodes has the shape of a schema. -/
def Codec.DecodesTo (reg : Registry) (s : Schema) (c : Codec) : Prop :=
  ∀ buf scope offset d, c.decode buf scope offset = .ok d → s.Shapes reg d.value

theorem Scalar.isLeaf_of_read {s : Scalar} {buf : Bytes} {offset size : Nat} {value : Value}
    (h : s.read buf offset = .ok (value, size)) : value.IsLeaf := by
  cases s with
  | void =>
    cases h
    trivial
  | _ =>
    obtain ⟨_, _, h⟩ := Except.bind_eq_ok.1 h
    cases h
    trivial

theorem BranchesBecome.exists_branch {R : Schema → Codec → Prop} {branches : List (String × Schema)}
    {entries : List (String × Codec)} (h : BranchesBecome R branches entries) {entry : String × Codec}
    (hm : entry ∈ entries) : ∃ branch ∈ branches, R branch.2 entry.2 := by
  induction h with
  | nil => cases hm
  | @cons branch _ _ _ hr _ ih =>
    rcases List.mem_cons.1 hm with rfl | hm
    · exact ⟨branch, List.mem_cons_self, hr.2⟩
    · obtain ⟨other, ho, hR⟩ := ih hm
      exact ⟨other, List.mem_cons_of_mem _ ho, hR⟩

namespace Codec

variable {reg : Registry} {buf : Bytes} {offset size : Nat}

theorem isLeaf_of_decode {p : Primitive} {scope : Scope} {d : Decoded}
    (h : (scalar p).decode buf scope offset = .ok d) : d.value.IsLeaf := by
  obtain ⟨⟨value, size⟩, hread, h⟩ := Except.bind_eq_ok.1 h
  cases h
  exact Scalar.isLeaf_of_read hread

theorem forall_of_readItems {P : Value → Prop} {read : Nat → Except ReadError Decoded}
    (hread : ∀ place item, read place = .ok item → P item.value) {count : Nat} {items : List Value}
    (h : readItems read count offset = .ok (items, size)) : ∀ item ∈ items, P item := by
  induction count generalizing offset items size with
  | zero =>
    cases h
    exact fun _ hm => nomatch hm
  | succ count ih =>
    obtain ⟨first, others, size', hfirst, hrest, rfl, _⟩ := readItems_succ_eq_ok.1 h
    intro item hm
    rcases List.mem_cons.1 hm with rfl | hm
    · exact hread _ _ hfirst
    · exact ih hrest item hm

theorem shapes_of_decodeFields {members : List (Field Schema)} {entries : List (String × Codec)}
    (hm : MembersBecome (DecodesTo reg) members entries) {scope : Scope} {before record : Record}
    (h : decodeFields entries buf scope offset before = .ok (record, size)) :
    ∃ added, record = before ++ added ∧ Table.names added = members.map Field.name ∧
      ∀ pair ∈ members.zip added, pair.1.type.Shapes reg pair.2.2 := by
  induction hm generalizing offset size before with
  | nil =>
    cases h
    exact ⟨[], (List.append_nil _).symm, rfl, fun _ hp => nomatch hp⟩
  | @cons member entry _ _ hentry _ ih =>
    obtain ⟨name, c⟩ := entry
    obtain ⟨hname, hshapes⟩ := hentry
    obtain ⟨item, size', hitem, hrest, _⟩ := decodeFields_cons_eq_ok.1 h
    obtain ⟨added, rfl, hnames, hvalues⟩ := ih hrest
    refine ⟨(name, item.value) :: added, by simp [Table.push], ?_, ?_⟩
    · rw [List.map_cons, ← hnames, hname]
      rfl
    · intro pair hp
      rcases List.mem_cons.1 hp with rfl | hp
      · exact hshapes _ _ _ _ hitem
      · exact hvalues pair hp

theorem shapes_of_alternative {on : Discriminant} {branches : List (String × Schema)}
    {default : Option Schema} {entries : List (String × Codec)} {c : Codec}
    (hb : BranchesBecome (DecodesTo reg) branches entries) (hd : DefaultBecomes (DecodesTo reg) default c)
    (key : String) : DecodesTo reg (.switch on branches default) (alternative entries c key) := by
  intro buf scope offset d h
  rcases List.mem_cons.1 (alternative_mem entries c key) with hdefault | hbranch
  · rw [hdefault] at h
    cases default with
    | none =>
      cases hd
      cases h
      exact .noBranch
    | some type => exact .default (hd buf scope offset d h)
  · obtain ⟨entry, hm, heq⟩ := List.mem_map.1 hbranch
    obtain ⟨branch, hbranch, hshapes⟩ := hb.exists_branch hm
    rw [← heq] at h
    exact .branch hbranch (hshapes buf scope offset d h)

theorem decodesTo_of_layer {s : Schema} {c : Codec} (h : Layer reg (DecodesTo reg) s c) :
    DecodesTo reg s c := by
  intro buf scope offset d hd
  cases h with
  | registered h hb => exact .registered h (hb buf scope offset d hd)
  | builtIn h => exact .builtIn h (isLeaf_of_decode hd)
  | primitive => exact .primitive (isLeaf_of_decode hd)
  | text =>
    obtain ⟨_, _, _, _, _, _, _, _, rfl⟩ := decode_text_eq_ok.1 hd
    exact .text _
  | block =>
    obtain ⟨bs, _, rfl⟩ := decode_block_eq_ok.1 hd
    exact .buffer bs
  | countedBlock =>
    obtain ⟨_, _, bs, _, _, _, rfl⟩ := decode_countedBlock_eq_ok.1 hd
    exact .buffer bs
  | option hinner =>
    obtain ⟨_, _, ⟨_, rfl⟩ | ⟨_, item, hitem, rfl⟩⟩ := decode_option_eq_ok.1 hd
    · exact .absent
    · exact .present (hinner buf scope (offset + 1) item hitem)
  | array helement =>
    obtain ⟨items, size, hitems, rfl⟩ := decode_array_eq_ok.1 hd
    exact .array (forall_of_readItems (fun place item hi => helement buf scope place item hi) hitems)
  | countedArray _ helement =>
    obtain ⟨_, _, items, size, _, _, hitems, rfl⟩ := decode_countedArray_eq_ok.1 hd
    refine .array (forall_of_readItems (fun place item hi => ?_) hitems)
    exact helement buf scope place item (decode_of_guarded hi)
  | container hflat hm =>
    obtain ⟨record, size, hr, rfl⟩ := decode_container_eq_ok.1 hd
    obtain ⟨added, rfl, hnames, hvalues⟩ := shapes_of_decodeFields hm hr
    exact .container hflat hnames (hnames ▸ Schema.nodup_names_of_inlineFields hflat) hvalues
  | switch _ hb hdefault =>
    obtain ⟨key, _, hd⟩ := decode_switch_eq_ok.1 hd
    exact shapes_of_alternative hb hdefault key buf scope offset d hd

end Codec

namespace Schema

/-- A record has the inlined names of a container that a schema leads to, in order and each once. -/
def NamesRecord (reg : Registry) (s : Schema) (record : Record) : Prop :=
  ∃ fields flat, Relation.ReflTransGen (Uses reg) s (.container fields) ∧ inlineFields fields = .ok flat ∧
    Table.names record = flat.map Field.name ∧ (Table.names record).Nodup

theorem NamesRecord.head {reg : Registry} {s t : Schema} {record : Record} (hu : Uses reg s t)
    (h : t.NamesRecord reg record) : s.NamesRecord reg record := by
  obtain ⟨fields, flat, hleads, hrest⟩ := h
  exact ⟨fields, flat, .head hu hleads, hrest⟩

/-- A schema names every record in a value of its shape. -/
theorem Shapes.namesRecord {reg : Registry} {s : Schema} {value : Value} (h : s.Shapes reg value)
    {record : Record} (hr : value.Holds record) : s.NamesRecord reg record := by
  induction h with
  | registered h _ ih => exact (ih hr).head (.body h)
  | builtIn _ hv => cases hr <;> cases hv
  | primitive hv => cases hr <;> cases hv
  | text => cases hr
  | buffer => cases hr
  | absent => cases hr
  | present _ ih => exact (ih hr).head (.inner _)
  | array _ ih =>
    cases hr with
    | item hm hr => exact (ih _ hm hr).head (.element _ _ _)
  | @container fields flat whole hflat hnames hdistinct _ ih =>
    cases hr with
    | self => exact ⟨fields, flat, .refl, hflat, hnames, hdistinct⟩
    | @field _ entry hm hr =>
      -- There are as many members as entries, so the entry stands beside a member.
      have hlength : whole.length = flat.length := by
        simpa [Table.names] using congrArg List.length hnames
      have hzip : (flat.zip whole).map Prod.snd = whole := List.map_snd_zip (Nat.le_of_eq hlength)
      rw [← hzip] at hm
      obtain ⟨pair, hp, rfl⟩ := List.mem_map.1 hm
      exact (ih pair hp hr).head (.member hflat (List.of_mem_zip hp).1)
  | branch hm _ ih => exact (ih hr).head (.branch hm)
  | default _ ih => exact (ih hr).head (.default _ _ _)
  | noBranch => cases hr

end Schema

namespace Registry

/-- Members that can be inlined come to a normal form, which inlining leaves as it is, and a container of them
compiles in every session as the container of that normal form does: to the same codec or the same error, and
leaving the same session. Whatever a compiled codec decodes has the shape of its schema, so that every record
in it has the inlined names of its container, in order and each once. -/
theorem inlined_as_normal_form (reg : Registry) {fields flat : List (Field Schema)}
    (h : Schema.inlineFields fields = .ok flat) :
    Schema.InNormalForm fields flat ∧ Schema.inlineFields flat = .ok flat ∧
      reg.compile (.container fields) = reg.compile (.container flat) ∧
      ∀ session s c, Session.Over reg session → Compile.outcome (reg.compile s) session = .ok c →
        ∀ buf scope offset d, c.decode buf scope offset = .ok d →
          s.Shapes reg d.value ∧ ∀ record, d.value.Holds record → s.NamesRecord reg record := by
  have hnormal := Schema.inNormalForm_of_inlineFields h
  refine ⟨hnormal, hnormal.inlineFields_eq, ?_, ?_⟩
  · rw [Registry.compile, Registry.compile, Compile.compileIn_container _ _ h,
      Compile.compileIn_container _ _ hnormal.inlineFields_eq]
  · intro session s c hs hc buf scope offset d hd
    have hshapes : s.Shapes reg d.value :=
      related_of_compile (fun _ _ hl => Codec.decodesTo_of_layer hl) hs hc buf scope offset d hd
    exact ⟨hshapes, fun record hr => hshapes.namesRecord hr⟩

section Report

private def reportNormal : List (Field Schema) :=
  [⟨"kind", .primitive .u8, false⟩,
    ⟨"level", .switch (.field "kind") [("1", .primitive .li16), ("3", .buffer (some 2) none)] none,
      false⟩,
    ⟨"note", .switch (.field "kind")
      [("1", .text (.primitive .u8)), ("0x2", .primitive .i8), ("3", .buffer (some 2) none)] none,
      false⟩,
    ⟨"marks", .array (.primitive .u16) none (some (.primitive .i8)), false⟩]

private def reportOfKindTwo : Value :=
  .record [("kind", .uint 2), ("level", .null), ("note", .int 5), ("marks", .array [.uint 7])]

/-- The switch of a report is inlined to two members, and its normal form compiles to the same codec. What that
decodes has both names, though the second kind of report has no level. -/
theorem report_inlined_as_normal_form :
    Schema.inlineFields Codec.reportMembers = .ok reportNormal ∧
      Schema.InNormalForm Codec.reportMembers reportNormal ∧
      Compile.outcome (compile [] (.container reportNormal)) {} = .ok Codec.report ∧
      Codec.report.decode [2, 5, 1, 0, 7] [] 0 = .ok ⟨reportOfKindTwo, 5⟩ ∧
      (Schema.container Codec.reportMembers).Shapes [] reportOfKindTwo := by
  have h : Schema.inlineFields Codec.reportMembers = .ok reportNormal := rfl
  have hdecode : Codec.report.decode [2, 5, 1, 0, 7] [] 0 = .ok ⟨reportOfKindTwo, 5⟩ := rfl
  obtain ⟨hnormal, _, hcompile, hrecords⟩ := inlined_as_normal_form [] h
  refine ⟨h, hnormal, ?_, hdecode, ?_⟩
  · rw [← hcompile]
    exact Codec.outcome_report
  · exact (hrecords {} _ _ .new Codec.outcome_report _ _ _ _ hdecode).1

end Report

end Registry

end PacketCodec
