import PacketCodec.Error
import PacketCodec.Schema.Basic

/-!
# Inlining

Replaces the anonymous members of a container. An anonymous container gives its own members. An
anonymous switch is transposed: each field name of its container branches becomes one member, a
switch that keeps the type which each branch has for that name. Inlining goes one level deep and
leaves names that are pairwise distinct. It never makes a schema deeper.
-/

namespace PacketCodec

namespace Schema

def requireNamed : List (Field Schema) → Except SchemaFault (List (Field Schema))
  | [] => .ok []
  | field :: rest =>
    if field.anonymous then .error .nestedAnonymous
    else do
      let rest ← requireNamed rest
      return field :: rest

def branchMembers : List (String × Schema) → List (Field Schema)
  | [] => []
  | (_, .container fields) :: rest => fields ++ branchMembers rest
  | _ :: rest => branchMembers rest

/-- The texts without repetition, in the order of their first appearance after those `seen`. -/
def distinct (seen : List String) : List String → List String
  | [] => []
  | name :: rest =>
    if name ∈ seen then distinct seen rest else name :: distinct (name :: seen) rest

/-- The branches of the switch for one field name: a container branch gives the type that it has for
the name and is left out if it has none, any other branch stays as it is. -/
def branchesFor (name : String) : List (String × Schema) → List (String × Schema)
  | [] => []
  | (key, .container fields) :: rest =>
    match fields.find? fun field => field.name == name with
    | some field => (key, field.type) :: branchesFor name rest
    | none => branchesFor name rest
  | branch :: rest => branch :: branchesFor name rest

/-- One member for each field name of a switch's container branches. -/
def transpose (on : Discriminant) (branches : List (String × Schema)) (default : Option Schema) :
    Except SchemaFault (List (Field Schema)) := do
  let members ← requireNamed (branchMembers branches)
  let names := distinct [] (members.map Field.name)
  return names.map fun name => { name, type := .switch on (branchesFor name branches) default }

def expand (field : Field Schema) : Except SchemaFault (List (Field Schema)) :=
  if field.anonymous then
    match field.type with
    | .container fields => requireNamed fields
    | .switch on branches default => transpose on branches default
    | other => .error (.notInlinable other.describe)
  else .ok [field]

def expandAll : List (Field Schema) → Except SchemaFault (List (Field Schema))
  | [] => .ok []
  | field :: rest => do
    let fields ← expand field
    let others ← expandAll rest
    return fields ++ others

/-- The first name that occurs again after those `seen`. -/
def firstDuplicate (seen : List String) : List String → Option String
  | [] => none
  | name :: rest => if name ∈ seen then some name else firstDuplicate (name :: seen) rest

/-- The members of a container without anonymous ones. -/
def inlineFields (fields : List (Field Schema)) : Except SchemaFault (List (Field Schema)) := do
  let flat ← expandAll fields
  match firstDuplicate [] (flat.map Field.name) with
  | some name => throw (.duplicateField name)
  | none => return flat

theorem fieldsDepth_append (a b : List (Field Schema)) :
    fieldsDepth (a ++ b) = max (fieldsDepth a) (fieldsDepth b) := by
  induction a with
  | nil => simp [fieldsDepth]
  | cons field rest ih => simp [fieldsDepth, ih, Nat.max_assoc]

theorem depth_le_fieldsDepth {field : Field Schema} {fields : List (Field Schema)}
    (h : field ∈ fields) : field.type.depth ≤ fieldsDepth fields := by
  induction fields with
  | nil => cases h
  | cons head rest ih =>
    simp only [fieldsDepth]
    cases h with
    | head => exact Nat.le_max_left _ _
    | tail _ h => exact Nat.le_trans (ih h) (Nat.le_max_right _ _)

theorem eq_of_requireNamed {fields named : List (Field Schema)}
    (h : requireNamed fields = .ok named) : named = fields := by
  induction fields generalizing named with
  | nil => cases h; rfl
  | cons field rest ih =>
    simp only [requireNamed] at h
    split at h
    · cases h
    · cases hr : requireNamed rest with
      | error fault => rw [hr] at h; cases h
      | ok others =>
        rw [hr] at h
        cases h
        rw [ih hr]

private theorem branchesDepth_branchesFor_le (name : String) (branches : List (String × Schema)) :
    branchesDepth (branchesFor name branches) ≤ branchesDepth branches := by
  fun_induction branchesFor name branches with
  | case1 => simp [branchesDepth]
  | case2 key fields rest field hf ih =>
    have := depth_le_fieldsDepth (List.mem_of_find?_eq_some hf)
    simp only [branchesDepth, depth]
    omega
  | case3 key fields rest hf ih =>
    simp only [branchesDepth, depth]
    omega
  | case4 branch rest hb ih =>
    obtain ⟨key, s⟩ := branch
    simp only [branchesDepth]
    omega

private theorem fieldsDepth_map_le (names : List String) (f : String → Field Schema) (bound : Nat)
    (h : ∀ name, (f name).type.depth ≤ bound) : fieldsDepth (names.map f) ≤ bound := by
  induction names with
  | nil => exact Nat.zero_le _
  | cons name rest ih =>
    have := h name
    simp only [List.map_cons, fieldsDepth]
    omega

private theorem fieldsDepth_transpose_le {on : Discriminant} {branches : List (String × Schema)}
    {default : Option Schema} {fields : List (Field Schema)}
    (h : transpose on branches default = .ok fields) :
    fieldsDepth fields ≤ (Schema.switch on branches default).depth := by
  unfold transpose at h
  cases hm : requireNamed (branchMembers branches) with
  | error fault => rw [hm] at h; cases h
  | ok members =>
    rw [hm] at h
    cases h
    apply fieldsDepth_map_le
    intro name
    have := branchesDepth_branchesFor_le name branches
    simp only [depth]
    omega

private theorem fieldsDepth_expand_le {field : Field Schema} {fields : List (Field Schema)}
    (h : expand field = .ok fields) : fieldsDepth fields ≤ field.type.depth := by
  unfold expand at h
  split at h
  · split at h
    · rename_i inner hi
      rw [eq_of_requireNamed h, hi]
      simp [depth]
    · rename_i on branches default hs
      rw [hs]
      exact fieldsDepth_transpose_le h
    · cases h
  · cases h
    simp [fieldsDepth]

private theorem fieldsDepth_expandAll_le {fields flat : List (Field Schema)}
    (h : expandAll fields = .ok flat) : fieldsDepth flat ≤ fieldsDepth fields := by
  induction fields generalizing flat with
  | nil => cases h; exact Nat.le_refl _
  | cons field rest ih =>
    simp only [expandAll] at h
    cases he : expand field with
    | error fault => rw [he] at h; cases h
    | ok these =>
      cases hr : expandAll rest with
      | error fault => rw [he, hr] at h; cases h
      | ok others =>
        rw [he, hr] at h
        cases h
        rw [fieldsDepth_append]
        have := fieldsDepth_expand_le he
        have := ih hr
        simp only [fieldsDepth]
        omega

theorem fieldsDepth_inlineFields_le {fields flat : List (Field Schema)}
    (h : inlineFields fields = .ok flat) : fieldsDepth flat ≤ fieldsDepth fields := by
  unfold inlineFields at h
  cases he : expandAll fields with
  | error fault => rw [he] at h; cases h
  | ok all =>
    rw [he] at h
    simp only [bind, Except.bind] at h
    split at h
    · cases h
    · cases h
      exact fieldsDepth_expandAll_le he

end Schema

end PacketCodec
