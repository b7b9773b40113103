import PacketCodec.Codec.Basic
import PacketCodec.Compile.BranchKey
import PacketCodec.Event
import PacketCodec.Schema.Inline

/-!
# Compilation

Turns schemas into codecs. A session remembers every named type that it has compiled, so each is
compiled once, and refuses a type that refers to itself. What a failed compilation has compiled on
its way stays remembered.

Compilation ends because a reference is followed only to a registered name that is not being compiled
already, and everything else goes down in depth.
-/

namespace PacketCodec

abbrev Registry := Table Schema

structure Session where
  cache : Table Codec := []
  events : List Event := []

/-- Compilation in a session. An error leaves the session as it is by then. -/
abbrev Compile := ExceptT SchemaError (StateM Session)

namespace Compile

def fault {α : Type} (f : SchemaFault) : Compile α := throw (.here f)

def ofExcept {α : Type} (checked : Except SchemaFault α) : Compile α :=
  match checked with
  | .ok a => pure a
  | .error f => fault f

def report (e : Event) : Compile Unit :=
  modify fun s => { s with events := s.events ++ [e] }

def remember (name : String) (c : Codec) : Compile Unit :=
  modify fun s => { s with cache := s.cache.insert name c }

/-- A compilation whose errors are seen from outside a named type. -/
def within {α : Type} (name : String) (compilation : Compile α) : Compile α :=
  ExceptT.adapt (Located.within name) compilation

end Compile

namespace Schema

/-- What decides on the number of items, of a shape that says it in exactly one way. -/
def lengthOf {α : Type} (shape : String) (count : Option UInt64) (countType : Option α) :
    Except SchemaFault (Length α) :=
  match count, countType with
  | some n, none => .ok (.fixed n)
  | none, some t => .ok (.counted t)
  | none, none => .error (.lengthMissing shape)
  | some _, some _ => .error (.lengthAmbiguous shape)

/-- What decides on the number of items of an array or a buffer. -/
def length? : Schema → Option (Except SchemaFault (Length Schema))
  | .array _ count countType => some (lengthOf "Array" count countType)
  | .buffer count countType => some (lengthOf "Buffer" count countType)
  | _ => none

theorem eq_some_of_lengthOf {α : Type} {shape : String} {count : Option UInt64}
    {countType : Option α} {t : α} (h : lengthOf shape count countType = .ok (.counted t)) :
    countType = some t := by
  unfold lengthOf at h
  split at h <;> cases h
  rfl

end Schema

namespace Registry

/-- The number of registered types that are not among the names. -/
def fresh (reg : Registry) (names : List String) : Nat :=
  reg.countP fun entry => decide (entry.1 ∉ names)

private theorem fresh_cons_le (reg : Registry) (name : String) (names : List String) :
    fresh reg (name :: names) ≤ fresh reg names := by
  apply List.countP_mono_left
  intro entry _ h
  simp only [List.mem_cons, not_or, decide_eq_true_eq] at h ⊢
  exact h.2

theorem fresh_cons_lt {reg : Registry} {name : String} {names : List String} {s : Schema}
    (h : Table.get? reg name = some s) (hn : name ∉ names) :
    fresh reg (name :: names) < fresh reg names := by
  induction reg with
  | nil => cases h
  | cons entry rest ih =>
    obtain ⟨key, t⟩ := entry
    by_cases hk : key = name
    · subst hk
      rw [fresh, List.countP_cons_of_neg (by simp), fresh,
        List.countP_cons_of_pos (by simpa using hn)]
      exact Nat.lt_succ_of_le (fresh_cons_le rest key names)
    · simp only [Table.get?_cons, hk, if_false] at h
      have hr := ih h
      by_cases hm : key ∈ names
      · rwa [fresh, List.countP_cons_of_neg (by simp [hm]), fresh,
          List.countP_cons_of_neg (by simp [hm])]
      · rw [fresh, List.countP_cons_of_pos (by simp [hm, hk]), fresh,
          List.countP_cons_of_pos (by simp [hm])]
        exact Nat.succ_lt_succ hr

end Registry

open Compile in
mutual

/-- Compiles a schema while the named types `resolving`, innermost first, are being compiled. -/
def compileIn (reg : Registry) (resolving : List String) : Schema → Compile Codec
  | .ref name => compileNamedIn reg resolving name
  | .primitive p => return .scalar p
  | .text countType => do
    let count ← compileIn reg resolving countType
    return .text count
  | .buffer count countType => do
    match _h : Schema.lengthOf "Buffer" count countType with
    | .error f => fault f
    | .ok (.fixed n) => return .block n.toNat
    | .ok (.counted type) =>
      let count ← compileIn reg resolving type
      return .countedBlock count
  | .option inner => do
    let inner ← compileIn reg resolving inner
    return .option inner
  | .array element count countType => do
    match _h : Schema.lengthOf "Array" count countType with
    | .error f => fault f
    | .ok (.fixed n) =>
      let element ← compileIn reg resolving element
      return .array element n.toNat
    | .ok (.counted type) =>
      let count ← compileIn reg resolving type
      let element ← compileIn reg resolving element
      return .countedArray count element
  | .container fields => do
    match _h : Schema.inlineFields fields with
    | .error f => fault f
    | .ok flat =>
      let fields ← compileFieldsIn reg resolving flat
      return .container fields
  | .switch on branches default => do
    let branches ← compileBranchesIn reg resolving [] branches
    let default ←
      match default with
      | some type => compileIn reg resolving type
      | none => pure (.scalar .void)
    return .ofBranches on branches default
termination_by s => (reg.fresh resolving, s.depth, 0)
decreasing_by
  all_goals refine Prod.Lex.right _ (Prod.Lex.left _ _ ?_)
  · simp only [Schema.depth]
    omega
  · simp only [Schema.depth]
    omega
  · have := Schema.eq_some_of_lengthOf _h
    subst this
    simp only [Schema.depth, Schema.optionDepth]
    omega
  · simp only [Schema.depth]
    omega
  · simp only [Schema.depth]
    omega
  · have := Schema.eq_some_of_lengthOf _h
    subst this
    simp only [Schema.depth, Schema.optionDepth]
    omega
  · simp only [Schema.depth]
    omega
  · have := Schema.fieldsDepth_inlineFields_le _h
    simp only [Schema.depth]
    omega
  · simp only [Schema.depth]
    omega
  · simp only [Schema.depth, Schema.optionDepth]
    omega

/-- Compiles a named type: a remembered one as it is, then a registered one, then a primitive. -/
def compileNamedIn (reg : Registry) (resolving : List String) (name : String) : Compile Codec := do
  let session ← get
  match session.cache.get? name with
  | some c => return c
  | none =>
    if _hn : name ∈ resolving then fault (.recursiveType resolving.reverse name)
    else
      match _h : Table.get? reg name with
      | some body =>
        report (.compilingType name)
        let c ← within name (compileIn reg (name :: resolving) body)
        remember name c
        return c
      | none =>
        match Primitive.ofName? name with
        | some p =>
          remember name (.scalar p)
          return .scalar p
        | none => fault (.unknownType name)
termination_by (reg.fresh resolving, 0, 0)
decreasing_by
  exact Prod.Lex.left _ _ (Registry.fresh_cons_lt _h _hn)

def compileFieldsIn (reg : Registry) (resolving : List String) :
    List (Field Schema) → Compile (List (String × Codec))
  | [] => return []
  | ⟨name, type, _⟩ :: rest => do
    let c ← compileIn reg resolving type
    let fields ← compileFieldsIn reg resolving rest
    return (name, c) :: fields
termination_by fields => (reg.fresh resolving, Schema.fieldsDepth fields, fields.length + 1)
decreasing_by
  · simp only [Schema.fieldsDepth, List.length_cons]
    by_cases hd : type.depth < max type.depth (Schema.fieldsDepth rest)
    · exact Prod.Lex.right _ (Prod.Lex.left _ _ hd)
    · rw [show max type.depth (Schema.fieldsDepth rest) = type.depth by omega]
      exact Prod.Lex.right _ (Prod.Lex.right _ (by omega))
  · simp only [Schema.fieldsDepth, List.length_cons]
    by_cases hd : Schema.fieldsDepth rest < max type.depth (Schema.fieldsDepth rest)
    · exact Prod.Lex.right _ (Prod.Lex.left _ _ hd)
    · rw [show max type.depth (Schema.fieldsDepth rest) = Schema.fieldsDepth rest by omega]
      exact Prod.Lex.right _ (Prod.Lex.right _ (by omega))

/-- Compiles the branches of a switch in order, none under a key that is `taken`. -/
def compileBranchesIn (reg : Registry) (resolving : List String) (taken : List String) :
    List (String × Schema) → Compile (List (String × Codec))
  | [] => return []
  | (declared, type) :: rest => do
    let key := BranchKey.normalize declared
    if key ∈ taken then fault (.duplicateBranch key)
    else
      let c ← compileIn reg resolving type
      let branches ← compileBranchesIn reg resolving (key :: taken) rest
      return (key, c) :: branches
termination_by branches => (reg.fresh resolving, Schema.branchesDepth branches, branches.length + 1)
decreasing_by
  · simp only [Schema.branchesDepth, List.length_cons]
    by_cases hd : type.depth < max type.depth (Schema.branchesDepth rest)
    · exact Prod.Lex.right _ (Prod.Lex.left _ _ hd)
    · rw [show max type.depth (Schema.branchesDepth rest) = type.depth by omega]
      exact Prod.Lex.right _ (Prod.Lex.right _ (by omega))
  · simp only [Schema.branchesDepth, List.length_cons]
    by_cases hd : Schema.branchesDepth rest < max type.depth (Schema.branchesDepth rest)
    · exact Prod.Lex.right _ (Prod.Lex.left _ _ hd)
    · rw [show max type.depth (Schema.branchesDepth rest) = Schema.branchesDepth rest by omega]
      exact Prod.Lex.right _ (Prod.Lex.right _ (by omega))

end

namespace Registry

def compile (reg : Registry) (s : Schema) : Compile Codec := compileIn reg [] s

def compileNamed (reg : Registry) (name : String) : Compile Codec := compileNamedIn reg [] name

end Registry

end PacketCodec
