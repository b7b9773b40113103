import PacketCodec.Proofs.Schema.Inlining

/-!
# The normal form of a container

Inlining leaves members that all have names, no two the same, each in the place of the member that it comes
from. Such members are a normal form: inlining leaves them as they are.
-/

namespace PacketCodec

namespace Schema

/-- What may stand in the place of a member: a named one itself; of an anonymous container its members, all of
them named; of an anonymous switch a switch for each name that its container branches have. -/
inductive ReplacedBy : Field Schema → List (Field Schema) → Prop
  | named {field : Field Schema} (h : field.anonymous = false) : ReplacedBy field [field]
  | spliced {label : String} {members : List (Field Schema)}
      (h : ∀ member ∈ members, member.anonymous = false) :
      ReplacedBy ⟨label, .container members, true⟩ members
  | transposed {label : String} {on : Discriminant} {branches : List (String × Schema)}
      {default : Option Schema} :
      ReplacedBy ⟨label, .switch on branches default, true⟩
        ((switchNames branches).map fun name =>
          { name, type := .switch on (branchesFor name branches) default })

/-- Members in normal form that stand in the places of others, in their order. -/
structure InNormalForm (fields flat : List (Field Schema)) : Prop where
  named : ∀ field ∈ flat, field.anonymous = false
  distinct : (flat.map Field.name).Nodup
  inPlace : ∃ parts, List.Forall₂ ReplacedBy fields parts ∧ flat = parts.flatten

variable {field : Field Schema} {fields flat these members : List (Field Schema)}

theorem named_of_requireNamed (h : requireNamed fields = .ok members) :
    ∀ field ∈ fields, field.anonymous = false := by
  induction fields generalizing members with
  | nil => exact fun _ hm => nomatch hm
  | cons field rest ih =>
    simp only [requireNamed] at h
    split at h
    · cases h
    · rename_i hfield
      obtain ⟨others, hrest, _⟩ := Except.bind_eq_ok.1 h
      intro other hm
      rcases List.mem_cons.1 hm with rfl | hm
      · exact Bool.eq_false_iff.2 hfield
      · exact ih hrest other hm

theorem replacedBy_of_expand (h : expand field = .ok these) : ReplacedBy field these := by
  obtain ⟨label, type, anonymous⟩ := field
  cases anonymous with
  | false =>
    cases h
    exact .named rfl
  | true =>
    cases type with
    | container members =>
      have hthese : these = members := eq_of_requireNamed h
      rw [hthese]
      exact .spliced (named_of_requireNamed h)
    | switch on branches default =>
      rw [transpose_eq_ok h]
      exact .transposed
    | _ => cases h

theorem ReplacedBy.named_all (h : ReplacedBy field these) :
    ∀ member ∈ these, member.anonymous = false := by
  cases h with
  | named h =>
    intro member hm
    rw [List.mem_singleton.1 hm]
    exact h
  | spliced h => exact h
  | transposed =>
    intro member hm
    obtain ⟨name, _, rfl⟩ := List.mem_map.1 hm
    rfl

theorem replacedBy_of_expandAll (h : expandAll fields = .ok flat) :
    ∃ parts, List.Forall₂ ReplacedBy fields parts ∧ flat = parts.flatten := by
  induction fields generalizing flat with
  | nil =>
    cases h
    exact ⟨[], .nil, rfl⟩
  | cons field rest ih =>
    obtain ⟨these, hthese, h⟩ := Except.bind_eq_ok.1 h
    obtain ⟨others, hrest, h⟩ := Except.bind_eq_ok.1 h
    cases h
    obtain ⟨parts, hparts, rfl⟩ := ih hrest
    exact ⟨these :: parts, .cons (replacedBy_of_expand hthese) hparts, rfl⟩

theorem named_of_replacedBy {parts : List (List (Field Schema))}
    (h : List.Forall₂ ReplacedBy fields parts) : ∀ member ∈ parts.flatten, member.anonymous = false := by
  induction h with
  | nil => exact fun _ hm => nomatch hm
  | cons hfirst _ ih =>
    intro member hm
    rcases List.mem_append.1 hm with hm | hm
    · exact hfirst.named_all member hm
    · exact ih member hm

theorem inNormalForm_of_inlineFields (h : inlineFields fields = .ok flat) : InNormalForm fields flat := by
  obtain ⟨parts, hparts, rfl⟩ := replacedBy_of_expandAll (expandAll_of_inlineFields h)
  exact ⟨named_of_replacedBy hparts, nodup_names_of_inlineFields h, parts, hparts, rfl⟩

theorem expandAll_of_named (h : ∀ field ∈ fields, field.anonymous = false) :
    expandAll fields = .ok fields := by
  induction fields with
  | nil => rfl
  | cons field rest ih =>
    have hfield : expand field = .ok [field] := by
      rw [expand, h field List.mem_cons_self]
      rfl
    rw [expandAll, hfield, ih fun other hm => h other (List.mem_cons_of_mem _ hm)]
    rfl

theorem firstDuplicate_eq_none {seen names : List String} (hn : names.Nodup)
    (hs : ∀ name ∈ names, name ∉ seen) : firstDuplicate seen names = none := by
  induction names generalizing seen with
  | nil => rfl
  | cons name rest ih =>
    obtain ⟨hname, hrest⟩ := List.nodup_cons.1 hn
    rw [firstDuplicate, if_neg (hs name List.mem_cons_self)]
    refine ih hrest fun other hm hseen => ?_
    rcases List.mem_cons.1 hseen with rfl | hseen
    · exact hname hm
    · exact hs other (List.mem_cons_of_mem _ hm) hseen

theorem InNormalForm.inlineFields_eq (h : InNormalForm fields flat) : inlineFields flat = .ok flat := by
  rw [inlineFields, expandAll_of_named h.named]
  have hdup : firstDuplicate [] (flat.map Field.name) = none :=
    firstDuplicate_eq_none h.distinct fun _ _ => List.not_mem_nil
  simp only [bind, Except.bind, hdup]
  rfl

end Schema

end PacketCodec
