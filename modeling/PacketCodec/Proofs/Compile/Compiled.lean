import PacketCodec.Proofs.Codec.Parts
import PacketCodec.Proofs.Compile.Layer
import PacketCodec.Proofs.Schema.Inlining

/-!
# Compiled codecs

What holds of every codec that compilation returns, at every level of it: the fields of a container have
distinct names, and the size that a switch keeps is the one that its alternatives have in common.
-/

namespace PacketCodec

/-- The sessions over a registry: a new one, and what compiling a schema leaves of another. -/
inductive Session.Over (reg : Registry) : Session → Prop
  | new : Session.Over reg {}
  | next {session : Session} (h : Session.Over reg session) (s : Schema) :
      Session.Over reg (Compile.after (reg.compile s) session)

section Related

variable {reg : Registry} {R : Schema → Codec → Prop} {session : Session}

theorem Session.Over.remembers (closed : ∀ s c, Layer reg R s c → R s c)
    (h : Session.Over reg session) : session.Remembers R := by
  induction h with
  | new => exact fun _ _ hm => nomatch hm
  | next _ s ih => exact (Registry.keeps_compile closed s _ ih).1

theorem Registry.related_of_compile (closed : ∀ s c, Layer reg R s c → R s c)
    (hs : Session.Over reg session) {s : Schema} {c : Codec}
    (hc : Compile.outcome (reg.compile s) session = .ok c) : R s c :=
  (Registry.keeps_compile closed s session (hs.remembers closed)).2 c hc

end Related

namespace Codec

/-- Some schema compiles to the codec, in some session over some registry. -/
def Compiled (c : Codec) : Prop :=
  ∃ reg session s, Session.Over reg session ∧ Compile.outcome (reg.compile s) session = .ok c

/-- What compilation sees to when it puts a codec together. -/
def WellBuilt : Codec → Prop
  | .container fields => (Table.names fields).Nodup
  | .switch _ branches default size => size = commonSize branches default
  | _ => True

section Entries

variable {P : Codec → Prop} {members : List (Field Schema)} {branches : List (String × Schema)}
  {entries : List (String × Codec)} {c : Codec}

private theorem names_of_membersBecome (h : MembersBecome (fun _ d => P d) members entries) :
    Table.names entries = members.map Field.name := by
  induction h with
  | nil => rfl
  | cons hr _ ih =>
    simp only [Table.names, List.map_cons] at ih ⊢
    rw [hr.1, ih]

private theorem everywhere_container
    (h : MembersBecome (fun _ d => Everywhere P d) members entries)
    (hc : P (.container entries)) : Everywhere P (.container entries) := by
  refine .intro hc fun d hd => ?_
  obtain ⟨entry, he, rfl⟩ := List.mem_map.1 hd
  exact h.forall_right entry he

private theorem everywhere_switch {on : Discriminant} {size : Option Nat} {default : Option Schema}
    (hb : BranchesBecome (fun _ d => Everywhere P d) branches entries)
    (hd : DefaultBecomes (fun _ d => Everywhere P d) default c) (hv : P (.scalar .void))
    (hc : P (.switch on entries c size)) : Everywhere P (.switch on entries c size) := by
  refine .intro hc fun d hm => ?_
  rcases List.mem_cons.1 hm with rfl | hm
  · cases default with
    | none =>
      cases hd
      exact .intro hv fun _ hm => nomatch hm
    | some t => exact hd
  · obtain ⟨entry, he, rfl⟩ := List.mem_map.1 hm
    exact hb.forall_right entry he

end Entries

private theorem wellBuilt_of_layer {reg : Registry} {s : Schema} {c : Codec}
    (h : Layer reg (fun _ d => Everywhere WellBuilt d) s c) : Everywhere WellBuilt c := by
  have single {d : Codec} (hd : Everywhere WellBuilt d) :
      ∀ e ∈ [d], Everywhere WellBuilt e := by
    intro e he
    rw [List.mem_singleton.1 he]
    exact hd
  cases h with
  | registered _ hb => exact hb
  | builtIn => exact .intro trivial fun _ hd => nomatch hd
  | primitive => exact .intro trivial fun _ hd => nomatch hd
  | text h => exact .intro trivial (single h)
  | block => exact .intro trivial fun _ hd => nomatch hd
  | countedBlock h => exact .intro trivial (single h)
  | option h => exact .intro trivial (single h)
  | array h => exact .intro trivial (single h)
  | countedArray ht he =>
    refine .intro trivial fun d hd => ?_
    rcases List.mem_cons.1 hd with rfl | hd
    · exact ht
    · exact single he d hd
  | container h he =>
    apply everywhere_container he
    have hn := Schema.nodup_names_of_inlineFields h
    rwa [← names_of_membersBecome he] at hn
  | switch _ hb hd => exact everywhere_switch hb hd trivial rfl

/-- A compiled codec is well built all through. -/
theorem Compiled.wellBuilt {c : Codec} (h : c.Compiled) : c.Everywhere WellBuilt := by
  obtain ⟨reg, session, s, hs, hc⟩ := h
  exact Registry.related_of_compile (R := fun _ d => d.Everywhere WellBuilt)
    (fun _ _ hl => wellBuilt_of_layer hl) hs hc

section Message

open Compile

private def messageMembers : List (Field Schema) :=
  [⟨"kind", .primitive .u8, false⟩,
    ⟨"names", .array (.text (.primitive .u8)) none (some (.primitive .varint)), false⟩,
    ⟨"body", .switch (.field "kind") [("0x1", .primitive .u16)] (some (.option (.primitive .i16))),
      false⟩]

theorem message_compiled : message.Compiled := by
  have hflat : Schema.inlineFields messageMembers = .ok messageMembers := rfl
  have hkey : BranchKey.normalize "0x1" = "1" := rfl
  refine ⟨[], {}, .container messageMembers, .new, ?_⟩
  rw [Registry.compile, compileIn_container [] [] hflat]
  simp only [messageMembers, compileFieldsIn, compileIn, compileIn_countedArray, compileIn_switch,
    compileBranchesIn, compileDefaultIn, hkey, List.not_mem_nil, if_false]
  rfl

end Message

section Report

open Compile

def reportBranches : List (String × Schema) :=
  [("1", .container [⟨"level", .primitive .li16, false⟩, ⟨"note", .text (.primitive .u8), false⟩]),
    ("0x2", .container [⟨"note", .primitive .i8, false⟩]),
    ("3", .buffer (some 2) none)]

/-- The members of a report: its kind, what the kind has to say and some marks. -/
def reportMembers : List (Field Schema) :=
  [⟨"kind", .primitive .u8, false⟩, ⟨"", .switch (.field "kind") reportBranches none, true⟩,
    ⟨"marks", .array (.primitive .u16) none (some (.primitive .i8)), false⟩]

/-- A report as it is compiled. -/
def report : Codec :=
  .container
    [("kind", .scalar .u8),
      ("level", .ofBranches (.field "kind") [("1", .scalar .li16), ("3", .block 2)] (.scalar .void)),
      ("note", .ofBranches (.field "kind")
        [("1", .text (.scalar .u8)), ("2", .scalar .i8), ("3", .block 2)] (.scalar .void)),
      ("marks", .countedArray (.scalar .i8) (.scalar .u16))]

private def reportFlat : List (Field Schema) :=
  [⟨"kind", .primitive .u8, false⟩,
    ⟨"level", .switch (.field "kind") [("1", .primitive .li16), ("3", .buffer (some 2) none)] none,
      false⟩,
    ⟨"note", .switch (.field "kind")
      [("1", .text (.primitive .u8)), ("0x2", .primitive .i8), ("3", .buffer (some 2) none)] none,
      false⟩,
    ⟨"marks", .array (.primitive .u16) none (some (.primitive .i8)), false⟩]

theorem outcome_report : outcome (Registry.compile [] (.container reportMembers)) {} = .ok report := by
  have hflat : Schema.inlineFields reportMembers = .ok reportFlat := rfl
  have hone : BranchKey.normalize "1" = "1" := rfl
  have htwo : BranchKey.normalize "0x2" = "2" := rfl
  have hthree : BranchKey.normalize "3" = "3" := rfl
  rw [Registry.compile, compileIn_container [] [] hflat]
  simp only [reportFlat, compileFieldsIn, compileIn, compileIn_countedArray, compileIn_switch,
    compileIn_block, compileBranchesIn, compileDefaultIn, hone, htwo, hthree, List.mem_cons,
    List.not_mem_nil]
  rfl

theorem report_compiled : report.Compiled :=
  ⟨[], {}, .container reportMembers, .new, outcome_report⟩

end Report

end Codec

end PacketCodec
