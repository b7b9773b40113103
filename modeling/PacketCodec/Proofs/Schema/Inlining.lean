import Mathlib.Data.List.Basic
import PacketCodec.Proofs.Except
import PacketCodec.Schema.Inline

/-!
# Inlined members

What inlining makes of the members of a container. Named members stay, an anonymous container leaves its
own members, and an anonymous switch leaves one member for each name that occurs in its container branches.
Such a member has, under the key of each branch, what the branch says about its name. Two things get lost on
the way: a member of a branch that already has one of that name, and all branches of a switch of which no
container branch has a member.
-/

namespace PacketCodec

namespace Schema

/-- The names of the members of a container. No other schema has members. -/
def memberNames : Schema → List String
  | .container fields => fields.map Field.name
  | _ => []

/-- The names that occur in the container branches of a switch, in the order of their first
appearance. -/
def switchNames (branches : List (String × Schema)) : List String :=
  (branches.flatMap fun branch => branch.2.memberNames).eraseDups

private theorem distinct_eq (seen names : List String) :
    distinct seen names = (names.filter fun name => name ∉ seen).eraseDups := by
  induction names generalizing seen with
  | nil => rfl
  | cons name rest ih =>
    rw [distinct]
    by_cases hn : name ∈ seen
    · simp [hn, ih]
    · rw [if_neg hn, ih, List.filter_cons_of_pos (by simpa using hn), List.eraseDups_cons,
        List.filter_filter]
      congr 3
      funext other
      simp only [List.mem_cons, not_or, Bool.decide_and, decide_not, beq_eq_decide]

private theorem map_name_branchMembers (branches : List (String × Schema)) :
    (branchMembers branches).map Field.name =
      branches.flatMap fun branch => branch.2.memberNames := by
  induction branches with
  | nil => rfl
  | cons branch rest ih =>
    obtain ⟨key, s⟩ := branch
    cases s <;> simp [branchMembers, memberNames, ih]

theorem transpose_eq_ok {on : Discriminant} {branches : List (String × Schema)}
    {default : Option Schema} {fields : List (Field Schema)}
    (h : transpose on branches default = .ok fields) :
    fields = (switchNames branches).map fun name =>
      { name, type := .switch on (branchesFor name branches) default } := by
  obtain ⟨members, hm, h⟩ := Except.bind_eq_ok.1 h
  cases h
  rw [eq_of_requireNamed hm, map_name_branchMembers, distinct_eq]
  simp [switchNames]

theorem expandAll_append {a b flat : List (Field Schema)}
    (h : expandAll (a ++ b) = .ok flat) :
    ∃ flatA flatB, expandAll a = .ok flatA ∧ expandAll b = .ok flatB ∧ flat = flatA ++ flatB := by
  induction a generalizing flat with
  | nil => exact ⟨[], flat, rfl, h, rfl⟩
  | cons field rest ih =>
    obtain ⟨fields, he, h⟩ := Except.bind_eq_ok.1 h
    obtain ⟨others, hr, h⟩ := Except.bind_eq_ok.1 h
    cases h
    obtain ⟨flatA, flatB, ha, hb, rfl⟩ := ih hr
    refine ⟨fields ++ flatA, flatB, ?_, hb, (List.append_assoc ..).symm⟩
    exact Except.bind_eq_ok.2 ⟨fields, he, Except.bind_eq_ok.2 ⟨flatA, ha, rfl⟩⟩

theorem expandAll_of_inlineFields {fields flat : List (Field Schema)}
    (h : inlineFields fields = .ok flat) : expandAll fields = .ok flat := by
  obtain ⟨all, he, h⟩ := Except.bind_eq_ok.1 h
  split at h
  · cases h
  · cases h
    exact he

private theorem nodup_of_firstDuplicate {seen names : List String}
    (h : firstDuplicate seen names = none) : names.Nodup ∧ ∀ name ∈ names, name ∉ seen := by
  induction names generalizing seen with
  | nil => exact ⟨List.nodup_nil, fun _ hm => nomatch hm⟩
  | cons name rest ih =>
    simp only [firstDuplicate] at h
    split at h
    · cases h
    · rename_i hn
      obtain ⟨hnodup, hfresh⟩ := ih h
      have hname : name ∉ rest := fun hm => hfresh name hm List.mem_cons_self
      refine ⟨List.nodup_cons.2 ⟨hname, hnodup⟩, ?_⟩
      intro other hm
      rcases List.mem_cons.1 hm with rfl | hm
      · exact hn
      · exact fun hs => hfresh other hm (List.mem_cons_of_mem _ hs)

theorem nodup_names_of_inlineFields {fields flat : List (Field Schema)}
    (h : inlineFields fields = .ok flat) : (flat.map Field.name).Nodup := by
  unfold inlineFields at h
  cases he : expandAll fields with
  | error fault => rw [he] at h; cases h
  | ok all =>
    rw [he] at h
    simp only [bind, Except.bind] at h
    split at h
    · cases h
    · rename_i hd
      cases h
      exact (nodup_of_firstDuplicate hd).1

section Members

variable {fields flat members : List (Field Schema)} {field : Field Schema} {label name key : String}
  {on : Discriminant} {branches : List (String × Schema)} {default : Option Schema} {type : Schema}

private theorem subset_of_expand (h : inlineFields fields = .ok flat) (hf : field ∈ fields) :
    ∃ these, expand field = .ok these ∧ these ⊆ flat := by
  obtain ⟨front, back, rfl⟩ := List.append_of_mem hf
  obtain ⟨flatFront, flatRest, _, hrest, rfl⟩ := expandAll_append (expandAll_of_inlineFields h)
  obtain ⟨these, hthese, hrest⟩ := Except.bind_eq_ok.1 hrest
  obtain ⟨flatBack, _, hrest⟩ := Except.bind_eq_ok.1 hrest
  cases hrest
  refine ⟨these, hthese, fun other hm => ?_⟩
  exact List.mem_append_right _ (List.mem_append_left _ hm)

theorem mem_of_named (h : inlineFields fields = .ok flat) (hf : field ∈ fields)
    (hn : field.anonymous = false) : field ∈ flat := by
  obtain ⟨these, hthese, hsub⟩ := subset_of_expand h hf
  simp only [expand, hn] at hthese
  cases hthese
  exact hsub List.mem_cons_self

theorem mem_of_spliced (h : inlineFields fields = .ok flat)
    (hf : ⟨label, .container members, true⟩ ∈ fields) (hm : field ∈ members) : field ∈ flat := by
  obtain ⟨these, hthese, hsub⟩ := subset_of_expand h hf
  have heq : these = members := eq_of_requireNamed hthese
  exact hsub (heq ▸ hm)

theorem mem_of_transposed (h : inlineFields fields = .ok flat)
    (hf : ⟨label, .switch on branches default, true⟩ ∈ fields) (hn : name ∈ switchNames branches) :
    ⟨name, .switch on (branchesFor name branches) default, false⟩ ∈ flat := by
  obtain ⟨these, hthese, hsub⟩ := subset_of_expand h hf
  apply hsub
  rw [transpose_eq_ok hthese]
  exact List.mem_map_of_mem hn

theorem mem_switchNames :
    name ∈ switchNames branches ↔ ∃ branch ∈ branches, name ∈ branch.2.memberNames := by
  rw [switchNames, List.mem_eraseDups, List.mem_flatMap]

theorem mem_branchesFor_of_member (hb : (key, .container members) ∈ branches)
    (hm : members.find? (fun other => other.name == name) = some field) :
    (key, field.type) ∈ branchesFor name branches := by
  fun_induction branchesFor name branches with
  | case1 => cases hb
  | case2 declared inner rest first hf ih =>
    rcases List.mem_cons.1 hb with heq | hb
    · cases heq
      cases hf.symm.trans hm
      exact List.mem_cons_self
    · exact List.mem_cons_of_mem _ (ih hb)
  | case3 declared inner rest hf ih =>
    rcases List.mem_cons.1 hb with heq | hb
    · cases heq
      cases hf.symm.trans hm
    · exact ih hb
  | case4 branch rest hne ih =>
    rcases List.mem_cons.1 hb with rfl | hb
    · exact absurd rfl (hne key members)
    · exact List.mem_cons_of_mem _ (ih hb)

theorem mem_branchesFor_of_whole (hb : (key, type) ∈ branches)
    (ht : ∀ members, type ≠ .container members) (name : String) :
    (key, type) ∈ branchesFor name branches := by
  fun_induction branchesFor name branches with
  | case1 => cases hb
  | case2 declared members rest field hm ih =>
    rcases List.mem_cons.1 hb with heq | hb
    · cases heq
      exact absurd rfl (ht members)
    · exact List.mem_cons_of_mem _ (ih hb)
  | case3 declared members rest hm ih =>
    rcases List.mem_cons.1 hb with heq | hb
    · cases heq
      exact absurd rfl (ht members)
    · exact ih hb
  | case4 branch rest _ ih =>
    rcases List.mem_cons.1 hb with rfl | hb
    · exact List.mem_cons_self
    · exact List.mem_cons_of_mem _ (ih hb)

/-- A member of the given name is a switch that has a type under a key, and is otherwise the switch with
that discriminant and that default. -/
def Carries (flat : List (Field Schema)) (on : Discriminant) (default : Option Schema)
    (name key : String) (type : Schema) : Prop :=
  ∃ branches, ⟨name, .switch on branches default, false⟩ ∈ flat ∧ (key, type) ∈ branches

/-- The members that an anonymous switch is inlined to carry every member of a container branch, unless
another one of its name stands before it in the branch, and every branch that is not a container, if any
container branch has a member at all. No two members have the same name. -/
theorem inlineFields_carries (h : inlineFields fields = .ok flat)
    (hf : ⟨label, .switch on branches default, true⟩ ∈ fields) :
    (flat.map Field.name).Nodup ∧
      (∀ key members field, (key, .container members) ∈ branches →
        members.find? (fun other => other.name == field.name) = some field →
          Carries flat on default field.name key field.type) ∧
      (∀ key type, (key, type) ∈ branches → (∀ members, type ≠ .container members) →
        ∀ other members member, (other, .container members) ∈ branches → member ∈ members →
          Carries flat on default member.name key type) := by
  have hname {key : String} {members : List (Field Schema)} {field : Field Schema}
      (hb : (key, .container members) ∈ branches) (hm : field ∈ members) :
      field.name ∈ switchNames branches :=
    mem_switchNames.2 ⟨_, hb, List.mem_map_of_mem hm⟩
  refine ⟨nodup_names_of_inlineFields h, ?_, ?_⟩
  · intro key members field hb hm
    have hn := hname hb (List.mem_of_find?_eq_some hm)
    exact ⟨_, mem_of_transposed h hf hn, mem_branchesFor_of_member hb hm⟩
  · intro key type hb ht other members member ho hm
    exact ⟨_, mem_of_transposed h hf (hname ho hm), mem_branchesFor_of_whole hb ht member.name⟩

end Members

section Note

private def noteFields : List (Field Schema) :=
  [⟨"kind", .primitive .u8, false⟩,
    ⟨"", .switch (.field "kind")
      [("1", .container [⟨"level", .primitive .u8, false⟩, ⟨"text", .text (.primitive .u8), false⟩]),
        ("2", .primitive .u16)] none, true⟩]

private def noteFlat : List (Field Schema) :=
  [⟨"kind", .primitive .u8, false⟩,
    ⟨"level", .switch (.field "kind") [("1", .primitive .u8), ("2", .primitive .u16)] none, false⟩,
    ⟨"text", .switch (.field "kind") [("1", .text (.primitive .u8)), ("2", .primitive .u16)] none,
      false⟩]

theorem note_inlineFields_carries :
    inlineFields noteFields = .ok noteFlat ∧
      Carries noteFlat (.field "kind") none "text" "1" (.text (.primitive .u8)) ∧
      Carries noteFlat (.field "kind") none "level" "2" (.primitive .u16) := by
  have h : inlineFields noteFields = .ok noteFlat := rfl
  obtain ⟨_, hmembers, hwhole⟩ := inlineFields_carries h (List.mem_cons_of_mem _ List.mem_cons_self)
  refine ⟨h, hmembers "1" _ ⟨"text", .text (.primitive .u8), false⟩ List.mem_cons_self rfl, ?_⟩
  refine hwhole "2" (.primitive .u16) (List.mem_cons_of_mem _ List.mem_cons_self) ?_ "1" _
    ⟨"level", .primitive .u8, false⟩ List.mem_cons_self List.mem_cons_self
  exact fun _ heq => nomatch heq

/-- A switch without container branches is inlined to nothing, and of two members of a branch that have the
same name the second is dropped. Neither is an error. -/
theorem inlineFields_loses :
    (inlineFields [⟨"", .switch (.field "kind") [("1", .primitive .u8)] none, true⟩] = .ok [] ∧
      ¬ ∃ name, Carries [] (.field "kind") none name "1" (.primitive .u8)) ∧
    (inlineFields [⟨"", .switch (.field "kind") [("1", .container
        [⟨"level", .primitive .u8, false⟩, ⟨"level", .primitive .u16, false⟩])] none, true⟩] =
      .ok [⟨"level", .switch (.field "kind") [("1", .primitive .u8)] none, false⟩] ∧
      ¬ Carries [⟨"level", .switch (.field "kind") [("1", .primitive .u8)] none, false⟩]
        (.field "kind") none "level" "1" (.primitive .u16)) := by
  refine ⟨⟨rfl, ?_⟩, rfl, ?_⟩
  · rintro ⟨name, branches, hm, _⟩
    cases hm
  · rintro ⟨branches, hm, hb⟩
    obtain ⟨_, hs, _⟩ := Field.mk.inj (List.mem_singleton.1 hm)
    obtain ⟨_, rfl, _⟩ := Schema.switch.inj hs
    cases List.mem_singleton.1 hb

end Note

end Schema

end PacketCodec
