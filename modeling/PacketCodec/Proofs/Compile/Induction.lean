import PacketCodec.Compile.Session

/-!
# Induction over compilation

How a schema is compiled from its parts, one equation for each way to put a schema together, and the
induction that these equations make up. Its cases are named for the schemas; each shows a compilation as
the sequence of those of the parts, about which no more is known than what the induction says of them.
-/

namespace PacketCodec

namespace Schema

variable {α : Type} {shape : String} {count : Option UInt64} {countType : Option α}

theorem eq_of_lengthOf_fixed {n : UInt64} (h : lengthOf shape count countType = .ok (.fixed n)) :
    count = some n ∧ countType = none := by
  cases count <;> cases countType <;> simp_all [lengthOf]

theorem eq_of_lengthOf_counted {t : α} (h : lengthOf shape count countType = .ok (.counted t)) :
    count = none ∧ countType = some t := by
  cases count <;> cases countType <;> simp_all [lengthOf]

end Schema

namespace Compile

section Equations

variable (reg : Registry) (resolving : List String)

theorem compileIn_buffer_fault {count : Option UInt64} {countType : Option Schema}
    {f : SchemaFault} (h : Schema.lengthOf "Buffer" count countType = .error f) :
    compileIn reg resolving (.buffer count countType) = fault f := by
  rw [compileIn]
  split <;> simp_all

theorem compileIn_block (n : UInt64) :
    compileIn reg resolving (.buffer (some n) none) = pure (.block n.toNat) := by
  rw [compileIn]
  split <;> simp_all [Schema.lengthOf]

theorem compileIn_countedBlock (t : Schema) :
    compileIn reg resolving (.buffer none (some t)) = (do
      let count ← compileIn reg resolving t
      return .countedBlock count) := by
  rw [compileIn]
  split <;> simp_all [Schema.lengthOf]

theorem compileIn_array_fault {e : Schema} {count : Option UInt64} {countType : Option Schema}
    {f : SchemaFault} (h : Schema.lengthOf "Array" count countType = .error f) :
    compileIn reg resolving (.array e count countType) = fault f := by
  rw [compileIn]
  split <;> simp_all

theorem compileIn_array (e : Schema) (n : UInt64) :
    compileIn reg resolving (.array e (some n) none) = (do
      let element ← compileIn reg resolving e
      return .array element n.toNat) := by
  rw [compileIn]
  split <;> simp_all [Schema.lengthOf]

theorem compileIn_countedArray (e t : Schema) :
    compileIn reg resolving (.array e none (some t)) = (do
      let count ← compileIn reg resolving t
      let element ← compileIn reg resolving e
      return .countedArray count element) := by
  rw [compileIn]
  split <;> simp_all [Schema.lengthOf]

theorem compileIn_container {fields flat : List (Field Schema)}
    (h : Schema.inlineFields fields = .ok flat) :
    compileIn reg resolving (.container fields) = (do
      let entries ← compileFieldsIn reg resolving flat
      return .container entries) := by
  rw [compileIn]
  split <;> simp_all

theorem compileIn_container_fault {fields : List (Field Schema)} {f : SchemaFault}
    (h : Schema.inlineFields fields = .error f) :
    compileIn reg resolving (.container fields) = fault f := by
  rw [compileIn]
  split <;> simp_all

def compileDefaultIn : Option Schema → Compile Codec
  | some t => compileIn reg resolving t
  | none => pure (.scalar .void)

theorem compileIn_switch (on : Discriminant) (branches : List (String × Schema))
    (default : Option Schema) :
    compileIn reg resolving (.switch on branches default) = (do
      let entries ← compileBranchesIn reg resolving [] branches
      let alternative ← compileDefaultIn reg resolving default
      return .ofBranches on entries alternative) := by
  rw [compileIn]
  cases default <;> rfl

theorem compileBranchesIn_taken {taken : List String} {declared : String} (t : Schema)
    (rest : List (String × Schema)) (h : BranchKey.normalize declared ∈ taken) :
    compileBranchesIn reg resolving taken ((declared, t) :: rest) =
      fault (.duplicateBranch (BranchKey.normalize declared)) := by
  rw [compileBranchesIn]
  exact if_pos h

theorem compileBranchesIn_free {taken : List String} {declared : String} (t : Schema)
    (rest : List (String × Schema)) (h : BranchKey.normalize declared ∉ taken) :
    compileBranchesIn reg resolving taken ((declared, t) :: rest) = (do
      let c ← compileIn reg resolving t
      let branches ← compileBranchesIn reg resolving (BranchKey.normalize declared :: taken) rest
      return (BranchKey.normalize declared, c) :: branches) := by
  rw [compileBranchesIn]
  exact if_neg h

/-- Compiles a named type that is not remembered. -/
def compileAnewIn (name : String) : Compile Codec :=
  if name ∈ resolving then fault (.recursiveType resolving.reverse name)
  else
    match Table.get? reg name with
    | some body => do
      report (.compilingType name)
      let c ← within name (compileIn reg (name :: resolving) body)
      remember name c
      return c
    | none =>
      match Primitive.ofName? name with
      | some p => do
        remember name (.scalar p)
        return .scalar p
      | none => fault (.unknownType name)

theorem compileNamedIn_eq (name : String) :
    compileNamedIn reg resolving name = (do
      let session ← get
      (Table.get? session.cache name).elim (compileAnewIn reg resolving name) pure) := by
  rw [compileNamedIn]
  congr 1
  funext session
  cases Table.get? session.cache name with
  | some c => rfl
  | none =>
    by_cases hn : name ∈ resolving
    · simp [compileAnewIn, hn]
    · simp only [compileAnewIn, hn, dite_false, if_false, Option.elim_none]
      split
      · rename_i body hb
        rw [hb]
      · rename_i hb
        cases Primitive.ofName? name <;> simp only [hb]

section Anew

variable {reg resolving} {name : String}

theorem compileAnewIn_recursive (h : name ∈ resolving) :
    compileAnewIn reg resolving name = fault (.recursiveType resolving.reverse name) :=
  if_pos h

theorem compileAnewIn_registered (hn : name ∉ resolving) {body : Schema}
    (h : Table.get? reg name = some body) :
    compileAnewIn reg resolving name = (do
      report (.compilingType name)
      let c ← within name (compileIn reg (name :: resolving) body)
      remember name c
      return c) := by
  rw [compileAnewIn, if_neg hn, h]

theorem compileAnewIn_builtIn (hn : name ∉ resolving) (h : Table.get? reg name = none)
    {p : Primitive} (hp : Primitive.ofName? name = some p) :
    compileAnewIn reg resolving name = (do
      remember name (.scalar p)
      return .scalar p) := by
  rw [compileAnewIn, if_neg hn, h, hp]

theorem compileAnewIn_unknown (hn : name ∉ resolving) (h : Table.get? reg name = none)
    (hp : Primitive.ofName? name = none) :
    compileAnewIn reg resolving name = fault (.unknownType name) := by
  rw [compileAnewIn, if_neg hn, h, hp]

end Anew

end Equations

/-- Whatever holds of each way to put a compilation together holds of all compilations. -/
theorem compileIn_induction (reg : Registry)
    (ofSchema : List String → Schema → Compile Codec → Prop)
    (ofBranches : List String → List String → List (String × Schema) →
      Compile (List (String × Codec)) → Prop)
    (ofFields : List String → List (Field Schema) → Compile (List (String × Codec)) → Prop)
    (ofName : List String → String → Compile Codec → Prop)
    (ref : ∀ resolving name m, ofName resolving name m → ofSchema resolving (.ref name) m)
    (primitive : ∀ resolving p, ofSchema resolving (.primitive p) (pure (.scalar p)))
    (text : ∀ resolving t m, ofSchema resolving t m →
      ofSchema resolving (.text t) (m >>= fun count => pure (.text count)))
    (bufferFault : ∀ resolving count countType f,
      Schema.lengthOf "Buffer" count countType = .error f →
      ofSchema resolving (.buffer count countType) (fault f))
    (block : ∀ resolving n, ofSchema resolving (.buffer (some n) none) (pure (.block n.toNat)))
    (countedBlock : ∀ resolving t m, ofSchema resolving t m →
      ofSchema resolving (.buffer none (some t)) (m >>= fun count => pure (.countedBlock count)))
    (option : ∀ resolving t m, ofSchema resolving t m →
      ofSchema resolving (.option t) (m >>= fun inner => pure (.option inner)))
    (arrayFault : ∀ resolving e count countType f,
      Schema.lengthOf "Array" count countType = .error f →
      ofSchema resolving (.array e count countType) (fault f))
    (array : ∀ resolving e n m, ofSchema resolving e m →
      ofSchema resolving (.array e (some n) none)
        (m >>= fun element => pure (.array element n.toNat)))
    (countedArray : ∀ resolving e t mCount mElement, ofSchema resolving t mCount →
      ofSchema resolving e mElement → ofSchema resolving (.array e none (some t))
        (mCount >>= fun count => mElement >>= fun element => pure (.countedArray count element)))
    (containerFault : ∀ resolving fields f, Schema.inlineFields fields = .error f →
      ofSchema resolving (.container fields) (fault f))
    (container : ∀ resolving fields flat m, Schema.inlineFields fields = .ok flat →
      ofFields resolving flat m →
      ofSchema resolving (.container fields) (m >>= fun entries => pure (.container entries)))
    (switch : ∀ resolving on branches default mBranches, ofBranches resolving [] branches mBranches →
      (∀ t, default = some t → ofSchema resolving t (compileIn reg resolving t)) →
      ofSchema resolving (.switch on branches default)
        (mBranches >>= fun entries => compileDefaultIn reg resolving default >>= fun alternative =>
          pure (.ofBranches on entries alternative)))
    (noBranch : ∀ resolving taken, ofBranches resolving taken [] (pure []))
    (takenBranch : ∀ resolving taken declared t rest, BranchKey.normalize declared ∈ taken →
      ofBranches resolving taken ((declared, t) :: rest)
        (fault (.duplicateBranch (BranchKey.normalize declared))))
    (freeBranch : ∀ resolving taken declared t rest m mRest, BranchKey.normalize declared ∉ taken →
      ofSchema resolving t m →
      ofBranches resolving (BranchKey.normalize declared :: taken) rest mRest →
      ofBranches resolving taken ((declared, t) :: rest)
        (m >>= fun c => mRest >>= fun branches =>
          pure ((BranchKey.normalize declared, c) :: branches)))
    (noField : ∀ resolving, ofFields resolving [] (pure []))
    (field : ∀ resolving field rest m mRest, ofSchema resolving field.type m →
      ofFields resolving rest mRest → ofFields resolving (field :: rest)
        (m >>= fun c => mRest >>= fun fields => pure ((field.name, c) :: fields)))
    (name : ∀ resolving name, (name ∉ resolving → ∀ body, Table.get? reg name = some body →
        ofSchema (name :: resolving) body (compileIn reg (name :: resolving) body)) →
      ofName resolving name (compileNamedIn reg resolving name)) :
    (∀ resolving s, ofSchema resolving s (compileIn reg resolving s)) ∧
    (∀ resolving taken branches,
      ofBranches resolving taken branches (compileBranchesIn reg resolving taken branches)) ∧
    (∀ resolving fields, ofFields resolving fields (compileFieldsIn reg resolving fields)) ∧
    (∀ resolving name, ofName resolving name (compileNamedIn reg resolving name)) := by
  apply compileIn.mutual_induct reg
  case case1 =>
    intro resolving n ih
    rw [compileIn]
    exact ref resolving n _ ih
  case case2 =>
    intro resolving p
    rw [compileIn]
    exact primitive resolving p
  case case3 =>
    intro resolving countType ih
    rw [compileIn]
    exact text resolving countType _ ih
  case case4 =>
    intro resolving count countType f h
    rw [compileIn_buffer_fault _ _ h]
    exact bufferFault resolving count countType f h
  case case5 =>
    intro resolving count countType n h
    obtain ⟨rfl, rfl⟩ := Schema.eq_of_lengthOf_fixed h
    rw [compileIn_block]
    exact block resolving n
  case case6 =>
    intro resolving count countType t h ih
    obtain ⟨rfl, rfl⟩ := Schema.eq_of_lengthOf_counted h
    rw [compileIn_countedBlock]
    exact countedBlock resolving t _ ih
  case case7 =>
    intro resolving inner ih
    rw [compileIn]
    exact option resolving inner _ ih
  case case8 =>
    intro resolving element count countType f h
    rw [compileIn_array_fault _ _ h]
    exact arrayFault resolving element count countType f h
  case case9 =>
    intro resolving element count countType n h ih
    obtain ⟨rfl, rfl⟩ := Schema.eq_of_lengthOf_fixed h
    rw [compileIn_array]
    exact array resolving element n _ ih
  case case10 =>
    intro resolving element count countType t h ihCount ihElement
    obtain ⟨rfl, rfl⟩ := Schema.eq_of_lengthOf_counted h
    rw [compileIn_countedArray]
    exact countedArray resolving element t _ _ ihCount ihElement
  case case11 =>
    intro resolving fields f h
    rw [compileIn_container_fault _ _ h]
    exact containerFault resolving fields f h
  case case12 =>
    intro resolving fields flat h ih
    rw [compileIn_container _ _ h]
    exact container resolving fields flat _ h ih
  case case13 =>
    intro resolving on branches default ihBranches ihDefault
    rw [compileIn_switch]
    apply switch resolving on branches default _ ihBranches
    intro t h
    subst h
    exact ihDefault
  case case14 =>
    intro resolving taken
    rw [compileBranchesIn]
    exact noBranch resolving taken
  case case15 =>
    intro resolving taken declared t rest key h
    rw [compileBranchesIn_taken _ _ t rest h]
    exact takenBranch resolving taken declared t rest h
  case case16 =>
    intro resolving taken declared t rest key h ihType ihRest
    rw [compileBranchesIn_free _ _ t rest h]
    exact freeBranch resolving taken declared t rest _ _ h ihType ihRest
  case case17 =>
    intro resolving
    rw [compileFieldsIn]
    exact noField resolving
  case case18 =>
    intro resolving n t anonymous rest ihType ihRest
    rw [compileFieldsIn]
    exact field resolving ⟨n, t, anonymous⟩ rest _ _ ihType ihRest
  case case19 =>
    intro resolving n ih
    exact name resolving n ih

end Compile

end PacketCodec
