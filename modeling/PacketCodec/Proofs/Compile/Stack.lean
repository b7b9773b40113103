import PacketCodec.Proofs.Compile.Induction
import PacketCodec.Proofs.Compile.Keeps

/-!
# The stack of names in work

A live session holds the names that are being compiled on a stack. A registered name is pushed before its
body is compiled and popped afterwards, whether the body has compiled or not, and a name that is found on the
stack is refused. Nothing but the stack keeps compilation from going on for ever, and what is on it depends on
what the calls before have left there. So compilation is given a number of nested calls that it may not
exceed.

Some number is enough, in every session. Compilation then comes to what compiling with the names on the stack
comes to, it leaves the same behind, and it leaves the stack as it has found it.
-/

namespace PacketCodec

/-- A session with the stack of the names that are being compiled, innermost first. -/
structure LiveSession extends Session where
  resolving : List String := []

/-- Compilation in a live session, unless its calls are nested too deep. -/
abbrev LiveCompile := ExceptT SchemaError (StateT LiveSession Option)

namespace LiveCompile

open Compile

variable {α β : Type}

/-- Calls are nested too deep. -/
def tooDeep : LiveCompile α := fun _ => none

/-- What a compilation does to a session, done to a live one. The stack is out of its reach. -/
def onSession (m : Compile α) : LiveCompile α := fun live =>
  some (outcome m live.toSession, { live with toSession := after m live.toSession })

def push (name : String) : LiveCompile Unit :=
  modify fun live => { live with resolving := name :: live.resolving }

def pop : LiveCompile Unit :=
  modify fun live => { live with resolving := live.resolving.tail }

/-- What a compilation comes to, as a value, whether it is a result or an error. -/
abbrev attempt (m : LiveCompile α) : LiveCompile (Except SchemaError α) :=
  (Except.ok <$> m.run : StateT LiveSession Option (Except SchemaError (Except SchemaError α)))

/-- A compilation for which a name is on the stack. -/
abbrev inWork (name : String) (m : LiveCompile α) : LiveCompile α := do
  push name
  let result ← attempt m
  pop
  MonadExcept.ofExcept (result.mapError (Located.within name))

mutual

/-- Compilation with a number of nested calls at most. -/
def compile (reg : Registry) : Nat → Schema → LiveCompile Codec
  | 0, _ => tooDeep
  | depth + 1, .ref name => compileNamed reg depth name
  | _ + 1, .primitive p => return .scalar p
  | depth + 1, .text countType => do
    let count ← compile reg depth countType
    return .text count
  | depth + 1, .buffer count countType => do
    match Schema.lengthOf "Buffer" count countType with
    | .error f => onSession (fault f)
    | .ok (.fixed n) => return .block n.toNat
    | .ok (.counted type) =>
      let count ← compile reg depth type
      return .countedBlock count
  | depth + 1, .option inner => do
    let inner ← compile reg depth inner
    return .option inner
  | depth + 1, .array element count countType => do
    match Schema.lengthOf "Array" count countType with
    | .error f => onSession (fault f)
    | .ok (.fixed n) =>
      let element ← compile reg depth element
      return .array element n.toNat
    | .ok (.counted type) =>
      let count ← compile reg depth type
      let element ← compile reg depth element
      return .countedArray count element
  | depth + 1, .container fields => do
    match Schema.inlineFields fields with
    | .error f => onSession (fault f)
    | .ok flat =>
      let fields ← compileFields reg depth flat
      return .container fields
  | depth + 1, .switch on branches default => do
    let branches ← compileBranches reg depth [] branches
    let default ←
      match default with
      | some type => compile reg depth type
      | none => pure (.scalar .void)
    return .ofBranches on branches default

def compileNamed (reg : Registry) : Nat → String → LiveCompile Codec
  | 0, _ => tooDeep
  | depth + 1, name => do
    let live ← get
    match live.cache.get? name with
    | some c => return c
    | none =>
      if name ∈ live.resolving then onSession (fault (.recursiveType live.resolving.reverse name))
      else
        match Table.get? reg name with
        | some body =>
          onSession (report (.compilingType name))
          let c ← inWork name (compile reg depth body)
          onSession (remember name c)
          return c
        | none =>
          match Primitive.ofName? name with
          | some p =>
            onSession (remember name (.scalar p))
            return .scalar p
          | none => onSession (fault (.unknownType name))

def compileFields (reg : Registry) :
    Nat → List (Field Schema) → LiveCompile (List (String × Codec))
  | 0, _ => tooDeep
  | _ + 1, [] => return []
  | depth + 1, ⟨name, type, _⟩ :: rest => do
    let c ← compile reg depth type
    let fields ← compileFields reg depth rest
    return (name, c) :: fields

def compileBranches (reg : Registry) :
    Nat → List String → List (String × Schema) → LiveCompile (List (String × Codec))
  | 0, _, _ => tooDeep
  | _ + 1, _, [] => return []
  | depth + 1, taken, (declared, type) :: rest => do
    let key := BranchKey.normalize declared
    if key ∈ taken then onSession (fault (.duplicateBranch key))
    else
      let c ← compile reg depth type
      let branches ← compileBranches reg depth (key :: taken) rest
      return (key, c) :: branches

end

/-- In every live session with a given stack, one compilation, if it may nest its calls deep enough, comes to
what another one comes to in the session alone, leaves the same session, and leaves the stack as it is. -/
def Mirrors (resolving : List String) (live : Nat → LiveCompile α) (m : Compile α) : Prop :=
  ∀ session, ∃ enough, ∀ depth, enough ≤ depth →
    (live depth).run.run ⟨session, resolving⟩ =
      some (outcome m session, ⟨after m session, resolving⟩)

variable {resolving : List String}

theorem mirrors_pure (a : α) : Mirrors resolving (fun _ => pure a) (pure a : Compile α) :=
  fun _ => ⟨0, fun _ _ => rfl⟩

theorem mirrors_onSession (m : Compile α) : Mirrors resolving (fun _ => onSession m) m :=
  fun _ => ⟨0, fun _ _ => rfl⟩

theorem mirrors_bind {live : Nat → LiveCompile α} {m : Compile α} {f : α → Nat → LiveCompile β}
    {g : α → Compile β} (h : Mirrors resolving live m) (hf : ∀ a, Mirrors resolving (f a) (g a)) :
    Mirrors resolving (fun depth => live depth >>= fun a => f a depth) (m >>= g) := by
  intro session
  obtain ⟨enough, hfirst⟩ := h session
  have hbind (depth : Nat) (hd : enough ≤ depth) :
      (live depth >>= fun a => f a depth).run.run ⟨session, resolving⟩ =
        (ExceptT.bindCont (fun a => f a depth) (outcome m session)).run
          ⟨after m session, resolving⟩ := by
    change ((live depth).run.run ⟨session, resolving⟩ >>= fun left =>
      (ExceptT.bindCont (fun a => f a depth) left.1).run left.2) = _
    rw [hfirst depth hd]
    rfl
  rw [outcome_bind, after_bind]
  cases ho : outcome m session with
  | error e =>
    refine ⟨enough, fun depth hd => ?_⟩
    rw [hbind depth hd, ho]
    rfl
  | ok a =>
    obtain ⟨enough', hsecond⟩ := hf a (after m session)
    refine ⟨max enough enough', fun depth hd => ?_⟩
    rw [hbind depth (by omega), ho]
    exact hsecond depth (by omega)

/-- A call nests the calls that it makes one deeper. -/
theorem mirrors_of_succ {live body : Nat → LiveCompile α} {m : Compile α}
    (h : ∀ depth, live (depth + 1) = body depth) (hbody : Mirrors resolving body m) :
    Mirrors resolving live m := by
  intro session
  obtain ⟨enough, hrun⟩ := hbody session
  refine ⟨enough + 1, fun depth hd => ?_⟩
  cases depth with
  | zero => omega
  | succ depth =>
    rw [h]
    exact hrun depth (by omega)

theorem mirrors_get {f : LiveSession → Nat → LiveCompile β} {g : Session → Compile β}
    (h : ∀ session, Mirrors resolving (f ⟨session, resolving⟩) (g session)) :
    Mirrors resolving (fun depth => get >>= fun live => f live depth) (get >>= g) :=
  fun session => h session session

theorem run_attempt {m : LiveCompile α} {live left : LiveSession} {result : Except SchemaError α}
    (h : m.run.run live = some (result, left)) :
    (attempt m).run.run live = some (.ok result, left) := by
  change (m.run.run live >>= fun p => some (Except.ok p.1, p.2)) = _
  rw [h]
  rfl

theorem mirrors_inWork {name : String} {live : Nat → LiveCompile α} {m : Compile α}
    (h : Mirrors (name :: resolving) live m) :
    Mirrors resolving (fun depth => inWork name (live depth)) (within name m) := by
  intro session
  obtain ⟨enough, hrun⟩ := h session
  refine ⟨enough, fun depth hd => ?_⟩
  have hbody := run_attempt (hrun depth hd)
  change ((attempt (live depth)).run.run ⟨session, name :: resolving⟩ >>= fun left =>
    (ExceptT.bindCont (fun result => pop >>= fun _ =>
      MonadExcept.ofExcept (result.mapError (Located.within name))) left.1).run left.2) = _
  rw [hbody, outcome_within]
  -- The name is popped before it is asked whether there is a result.
  cases outcome m session with
  | error e => rfl
  | ok a => rfl

theorem mirrors_related (reg : Registry) :
    (∀ resolving s, Mirrors resolving (fun depth => compile reg depth s) (compileIn reg resolving s)) ∧
    (∀ resolving taken branches,
      Mirrors resolving (fun depth => compileBranches reg depth taken branches)
        (compileBranchesIn reg resolving taken branches)) ∧
    (∀ resolving fields, Mirrors resolving (fun depth => compileFields reg depth fields)
      (compileFieldsIn reg resolving fields)) ∧
    (∀ resolving name, Mirrors resolving (fun depth => compileNamed reg depth name)
      (compileNamedIn reg resolving name)) := by
  apply compileIn_induction reg
    (fun resolving s m => Mirrors resolving (fun depth => compile reg depth s) m)
    (fun resolving taken branches m =>
      Mirrors resolving (fun depth => compileBranches reg depth taken branches) m)
    (fun resolving fields m => Mirrors resolving (fun depth => compileFields reg depth fields) m)
    (fun resolving name m => Mirrors resolving (fun depth => compileNamed reg depth name) m)
  case ref =>
    intro resolving name m ih
    exact mirrors_of_succ (fun depth => by rw [compile]) ih
  case primitive =>
    intro resolving p
    exact mirrors_of_succ (fun depth => by rw [compile]) (mirrors_pure _)
  case text =>
    intro resolving t m ih
    apply mirrors_of_succ (fun depth => by rw [compile])
    exact mirrors_bind ih fun _ => mirrors_pure _
  case bufferFault =>
    intro resolving count countType f h
    exact mirrors_of_succ (fun depth => by rw [compile, h]) (mirrors_onSession _)
  case block =>
    intro resolving n
    apply mirrors_of_succ (fun depth => by rw [compile])
    exact mirrors_pure _
  case countedBlock =>
    intro resolving t m ih
    apply mirrors_of_succ (fun depth => by rw [compile])
    exact mirrors_bind ih fun _ => mirrors_pure _
  case option =>
    intro resolving t m ih
    apply mirrors_of_succ (fun depth => by rw [compile])
    exact mirrors_bind ih fun _ => mirrors_pure _
  case arrayFault =>
    intro resolving e count countType f h
    exact mirrors_of_succ (fun depth => by rw [compile, h]) (mirrors_onSession _)
  case array =>
    intro resolving e n m ih
    apply mirrors_of_succ (fun depth => by rw [compile])
    exact mirrors_bind ih fun _ => mirrors_pure _
  case countedArray =>
    intro resolving e t mCount mElement ihCount ihElement
    apply mirrors_of_succ (fun depth => by rw [compile])
    exact mirrors_bind ihCount fun _ => mirrors_bind ihElement fun _ => mirrors_pure _
  case containerFault =>
    intro resolving fields f h
    exact mirrors_of_succ (fun depth => by rw [compile, h]) (mirrors_onSession _)
  case container =>
    intro resolving fields flat m h ih
    apply mirrors_of_succ (fun depth => by rw [compile, h])
    exact mirrors_bind ih fun _ => mirrors_pure _
  case switch =>
    intro resolving on branches default mBranches ihBranches ihDefault
    apply mirrors_of_succ (fun depth => by rw [compile])
    apply mirrors_bind ihBranches
    intro entries
    cases default with
    | none => exact mirrors_bind (mirrors_pure _) fun _ => mirrors_pure _
    | some t => exact mirrors_bind (ihDefault t rfl) fun _ => mirrors_pure _
  case noBranch =>
    intro resolving taken
    exact mirrors_of_succ (fun depth => by rw [compileBranches]) (mirrors_pure [])
  case takenBranch =>
    intro resolving taken declared t rest h
    apply mirrors_of_succ (fun depth => by rw [compileBranches])
    simp only [h, if_true]
    exact mirrors_onSession _
  case freeBranch =>
    intro resolving taken declared t rest m mRest h ihType ihRest
    apply mirrors_of_succ (fun depth => by rw [compileBranches])
    simp only [h, if_false]
    exact mirrors_bind ihType fun _ => mirrors_bind ihRest fun _ => mirrors_pure _
  case noField =>
    intro resolving
    exact mirrors_of_succ (fun depth => by rw [compileFields]) (mirrors_pure [])
  case field =>
    intro resolving field rest m mRest ihType ihRest
    apply mirrors_of_succ (fun depth => by rw [compileFields])
    exact mirrors_bind ihType fun _ => mirrors_bind ihRest fun _ => mirrors_pure _
  case name =>
    -- The one asks the stack and the other its argument, and a body is compiled with the name on both.
    intro resolving name ih
    apply mirrors_of_succ (fun depth => by rw [compileNamed])
    rw [compileNamedIn_eq]
    apply mirrors_get
    intro session
    cases Table.get? session.cache name with
    | some c => exact mirrors_pure c
    | none =>
      rw [Option.elim_none]
      by_cases hn : name ∈ resolving
      · simp only [hn, if_true]
        rw [compileAnewIn_recursive hn]
        exact mirrors_onSession _
      · simp only [hn, if_false]
        cases hb : Table.get? reg name with
        | some body =>
          rw [compileAnewIn_registered hn hb]
          apply mirrors_bind (mirrors_onSession _)
          intro _
          apply mirrors_bind (mirrors_inWork (ih hn body hb))
          intro c
          exact mirrors_bind (mirrors_onSession _) fun _ => mirrors_pure c
        | none =>
          cases hp : Primitive.ofName? name with
          | some p =>
            rw [compileAnewIn_builtIn hn hb hp]
            exact mirrors_bind (mirrors_onSession _) fun _ => mirrors_pure _
          | none =>
            rw [compileAnewIn_unknown hn hb hp]
            exact mirrors_onSession _

theorem mirrors_compile (reg : Registry) (s : Schema) :
    Mirrors [] (fun depth => compile reg depth s) (reg.compile s) :=
  (mirrors_related reg).1 [] s

theorem mirrors_compileNamed (reg : Registry) (name : String) :
    Mirrors [] (fun depth => compileNamed reg depth name) (reg.compileNamed name) :=
  (mirrors_related reg).2.2.2 [] name

/-- Compilation with a stack, if it may nest its calls deep enough, comes to what compilation under the names on
the stack comes to, and leaves the stack as it was, whether it has succeeded or failed. -/
theorem run_compile (reg : Registry) (s : Schema) (live : LiveSession) :
    ∃ enough, ∀ depth, enough ≤ depth →
      (compile reg depth s).run.run live =
        some (outcome (compileIn reg live.resolving s) live.toSession,
          ⟨after (compileIn reg live.resolving s) live.toSession, live.resolving⟩) :=
  (mirrors_related reg).1 live.resolving s live.toSession

end LiveCompile

end PacketCodec
