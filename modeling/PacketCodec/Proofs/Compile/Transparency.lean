import PacketCodec.PacketType
import PacketCodec.Proofs.Compile.Becomes
import PacketCodec.Proofs.Compile.Stack

/-!
# Sessions do not show

What a call on a session returns, be it a codec or an error, is what it returns on a new session: neither
the types that the session remembers nor the calls that have failed in it make a difference, and no call
leaves a name on the stack of those in work.

A remembered name is answered at once, where a new session goes through its body. That comes to the same,
for a name that is in work leads to whatever is being compiled, and what has compiled leads to no cycle.
-/

namespace PacketCodec

open Relation

namespace Compile

variable {α β : Type} {inv : Session → Prop}

/-- A compilation comes to the same in all sessions with a property, and keeps that property. -/
def Steady (inv : Session → Prop) (m : Compile α) : Prop :=
  ∀ session session', inv session → inv session' →
    outcome m session = outcome m session' ∧ inv (after m session) ∧ inv (after m session')

theorem steady_pure (a : α) : Steady inv (pure a : Compile α) :=
  fun _ _ hs hs' => ⟨rfl, hs, hs'⟩

theorem steady_fault (f : SchemaFault) : Steady inv (fault f : Compile α) :=
  fun _ _ hs hs' => ⟨rfl, hs, hs'⟩

theorem steady_modify {f : Session → Session} (h : ∀ session, inv session → inv (f session)) :
    Steady inv (modify f : Compile Unit) :=
  fun session session' hs hs' => ⟨rfl, h session hs, h session' hs'⟩

theorem steady_bind {m : Compile α} {f : α → Compile β} (hm : Steady inv m)
    (hf : ∀ a, Steady inv (f a)) : Steady inv (m >>= f) := by
  intro session session' hs hs'
  obtain ⟨ho, ha, ha'⟩ := hm session session' hs hs'
  simp only [outcome_bind, after_bind, ho]
  cases outcome m session' with
  | error e => exact ⟨rfl, ha, ha'⟩
  | ok a => exact hf a _ _ ha ha'

theorem steady_within {m : Compile α} (name : String) (hm : Steady inv m) :
    Steady inv (within name m) := by
  intro session session' hs hs'
  obtain ⟨ho, hafter⟩ := hm session session' hs hs'
  exact ⟨by rw [outcome_within, outcome_within, ho], hafter⟩

end Compile

namespace Compile

open Schema

variable {reg : Registry}

/-- A session remembers nothing but what names become. -/
abbrev Sound (reg : Registry) : Session → Prop :=
  Session.Remembers (Becomes reg)

/-- Every name in work leads to a schema. -/
def LeadTo (reg : Registry) (resolving : List String) (s : Schema) : Prop :=
  ∀ name ∈ resolving, TransGen (Uses reg) (.ref name) s

theorem LeadTo.part {resolving : List String} {s t : Schema} (h : LeadTo reg resolving s)
    (hu : Uses reg s t) : LeadTo reg resolving t :=
  fun name hn => (h name hn).tail hu

theorem LeadTo.body {resolving : List String} {name : String} {body : Schema}
    (h : LeadTo reg resolving (.ref name)) (hb : Table.get? reg name = some body) :
    LeadTo reg (name :: resolving) body := by
  intro other hm
  rcases List.mem_cons.1 hm with rfl | hm
  · exact .single (.body hb)
  · exact (h other hm).tail (.body hb)

private theorem keeps_sound (resolving : List String) (name : String) :
    Keeps (Sound reg) (Becomes reg (.ref name)) (compileNamedIn reg resolving name) :=
  (keeps_related fun _ _ hl => Becomes.of_layer hl).2.2.2 resolving name

private theorem outcome_of_remembered {resolving : List String} {name : String} {c : Codec}
    (hl : LeadTo reg resolving (.ref name)) (hc : Becomes reg (.ref name) c) {session : Session}
    (hs : Sound reg session) : outcome (compileNamedIn reg resolving name) session = .ok c := by
  have hfree : ∀ other ∈ resolving, ¬ ReflTransGen (Uses reg) (.ref name) (.ref other) :=
    fun other hm hr => hc.wellFormed.not_uses_self (TransGen.trans_right hr (hl other hm))
  obtain ⟨d, hd⟩ := succeeds_of_wellFormed hc.wellFormed resolving hfree session
  rw [compileIn] at hd
  rw [hd, hc.unique ((keeps_sound resolving name session hs).2 d hd)]

private theorem outcome_get_bind {α : Type} (f : Session → Compile α) (session : Session) :
    outcome (get >>= f) session = outcome (f session) session :=
  outcome_bind get f session

private theorem outcome_remembering (m : Compile Codec) (name : String) (session : Session) :
    outcome (m >>= fun c => remember name c >>= fun _ => pure c) session = outcome m session := by
  rw [outcome_bind]
  exact bind_pure (outcome m session)

private theorem outcome_of_unremembered {resolving : List String} {name : String}
    (ih : name ∉ resolving → ∀ body, Table.get? reg name = some body →
      Steady (Sound reg) (compileIn reg (name :: resolving) body))
    {session session' : Session} (hs : Sound reg session) (hs' : Sound reg session')
    (hc : Table.get? session.cache name = none) (hc' : Table.get? session'.cache name = none) :
    outcome (compileNamedIn reg resolving name) session =
      outcome (compileNamedIn reg resolving name) session' := by
  rw [compileNamedIn_eq, outcome_get_bind, outcome_get_bind, hc, hc', Option.elim_none]
  by_cases hn : name ∈ resolving
  · rw [compileAnewIn_recursive hn]
    rfl
  · cases hb : Table.get? reg name with
    | some body =>
      have hreport : Steady (Sound reg) (report (.compilingType name)) := steady_modify fun _ h => h
      have hbody : Steady (Sound reg)
          (report (.compilingType name) >>= fun _ =>
            within name (compileIn reg (name :: resolving) body)) :=
        steady_bind hreport fun _ => steady_within name (ih hn body hb)
      rw [compileAnewIn_registered hn hb, ← bind_assoc, outcome_remembering, outcome_remembering]
      exact (hbody session session' hs hs').1
    | none =>
      cases hp : Primitive.ofName? name with
      | some p =>
        rw [compileAnewIn_builtIn hn hb hp]
        rfl
      | none =>
        rw [compileAnewIn_unknown hn hb hp]
        rfl

/-- While names are in work that lead to what is compiled, all sound sessions compile it alike. -/
private theorem steady_related (reg : Registry) :
    (∀ resolving s, LeadTo reg resolving s → Steady (Sound reg) (compileIn reg resolving s)) ∧
    (∀ resolving taken branches, (∀ branch ∈ branches, LeadTo reg resolving branch.2) →
      Steady (Sound reg) (compileBranchesIn reg resolving taken branches)) ∧
    (∀ resolving fields, (∀ field ∈ fields, LeadTo reg resolving field.type) →
      Steady (Sound reg) (compileFieldsIn reg resolving fields)) ∧
    (∀ resolving name, LeadTo reg resolving (.ref name) →
      Steady (Sound reg) (compileNamedIn reg resolving name)) := by
  apply compileIn_induction reg
    (fun resolving s m => LeadTo reg resolving s → Steady (Sound reg) m)
    (fun resolving _ branches m => (∀ branch ∈ branches, LeadTo reg resolving branch.2) →
      Steady (Sound reg) m)
    (fun resolving fields m => (∀ field ∈ fields, LeadTo reg resolving field.type) →
      Steady (Sound reg) m)
    (fun resolving name m => LeadTo reg resolving (.ref name) → Steady (Sound reg) m)
  case ref =>
    intro resolving name m ih hl
    exact ih hl
  case primitive =>
    intro resolving p _
    exact steady_pure _
  case text =>
    intro resolving t m ih hl
    exact steady_bind (ih (hl.part (.textCount _))) fun _ => steady_pure _
  case bufferFault =>
    intro resolving count countType f _ _
    exact steady_fault f
  case block =>
    intro resolving n _
    exact steady_pure _
  case countedBlock =>
    intro resolving t m ih hl
    exact steady_bind (ih (hl.part (.bufferCount _ _))) fun _ => steady_pure _
  case option =>
    intro resolving t m ih hl
    exact steady_bind (ih (hl.part (.inner _))) fun _ => steady_pure _
  case arrayFault =>
    intro resolving e count countType f _ _
    exact steady_fault f
  case array =>
    intro resolving e n m ih hl
    exact steady_bind (ih (hl.part (.element _ _ _))) fun _ => steady_pure _
  case countedArray =>
    intro resolving e t mCount mElement ihCount ihElement hl
    exact steady_bind (ihCount (hl.part (.arrayCount _ _ _))) fun _ =>
      steady_bind (ihElement (hl.part (.element _ _ _))) fun _ => steady_pure _
  case containerFault =>
    intro resolving fields f _ _
    exact steady_fault f
  case container =>
    intro resolving fields flat m h ih hl
    exact steady_bind (ih fun field hf => hl.part (.member h hf)) fun _ => steady_pure _
  case switch =>
    intro resolving on branches default mBranches ihBranches ihDefault hl
    apply steady_bind (ihBranches fun branch hb => hl.part (.branch hb))
    intro entries
    have hd : Steady (Sound reg) (compileDefaultIn reg resolving default) := by
      cases default with
      | none => exact steady_pure _
      | some t => exact ihDefault t rfl (hl.part (.default _ _ _))
    exact steady_bind hd fun _ => steady_pure _
  case noBranch =>
    intro resolving taken _
    exact steady_pure []
  case takenBranch =>
    intro resolving taken declared t rest _ _
    exact steady_fault _
  case freeBranch =>
    intro resolving taken declared t rest m mRest _ ihType ihRest hl
    apply steady_bind (ihType (hl _ List.mem_cons_self))
    intro c
    exact steady_bind (ihRest fun branch hb => hl branch (List.mem_cons_of_mem _ hb)) fun _ =>
      steady_pure _
  case noField =>
    intro resolving _
    exact steady_pure []
  case field =>
    intro resolving field rest m mRest ihType ihRest hl
    apply steady_bind (ihType (hl _ List.mem_cons_self))
    intro c
    exact steady_bind (ihRest fun field hf => hl field (List.mem_cons_of_mem _ hf)) fun _ =>
      steady_pure _
  case name =>
    intro resolving name ih hl session session' hs hs'
    refine ⟨?_, (keeps_sound resolving name session hs).1, (keeps_sound resolving name session' hs').1⟩
    -- A session that remembers the name decides for both.
    cases hc : Table.get? session.cache name with
    | some c =>
      rw [outcome_of_remembered hl (hs name c hc) hs, outcome_of_remembered hl (hs name c hc) hs']
    | none =>
      cases hc' : Table.get? session'.cache name with
      | some c =>
        rw [outcome_of_remembered hl (hs' name c hc') hs, outcome_of_remembered hl (hs' name c hc') hs']
      | none =>
        exact outcome_of_unremembered (fun hn body hb => ih hn body hb (hl.body hb)) hs hs' hc hc'

end Compile

namespace Registry

open Compile

/-- A call on a session: for all that is done with a type, given by a schema or by its name, or for
reading, writing or measuring alone. -/
inductive Call where
  | compile (s : Schema)
  | compileNamed (name : String)
  | compileRead (s : Schema)
  | compileWrite (s : Schema)
  | compileSizeOf (s : Schema)

/-- What a call is answered with. -/
inductive Call.Answer where
  | packetType (t : PacketType)
  | reader (c : Codec)
  | writer (c : Codec)
  | sizer (c : Codec)

namespace Call

/-- The schema that a call compiles: a name is compiled like a reference to it. -/
def schema : Call → Schema
  | .compile s => s
  | .compileNamed name => .ref name
  | .compileRead s => s
  | .compileWrite s => s
  | .compileSizeOf s => s

/-- What a call makes of the codec that it comes to. -/
def answer : Call → Codec → Answer
  | .compile _, c => .packetType (.ofCodec c)
  | .compileNamed _, c => .packetType (.ofCodec c)
  | .compileRead _, c => .reader c
  | .compileWrite _, c => .writer c
  | .compileSizeOf _, c => .sizer c

def run (reg : Registry) : Call → Compile Answer
  | .compile s => do
    let c ← reg.compile s
    return .packetType (.ofCodec c)
  | .compileNamed name => do
    let c ← reg.compileNamed name
    return .packetType (.ofCodec c)
  | .compileRead s => do
    let c ← reg.compile s
    return .reader c
  | .compileWrite s => do
    let c ← reg.compile s
    return .writer c
  | .compileSizeOf s => do
    let c ← reg.compile s
    return .sizer c

/-- A call on a live session, which nests the calls that it makes so deep at most. -/
def runLive (reg : Registry) (depth : Nat) : Call → LiveCompile Answer
  | .compile s => do
    let c ← LiveCompile.compile reg depth s
    return .packetType (.ofCodec c)
  | .compileNamed name => do
    let c ← LiveCompile.compileNamed reg depth name
    return .packetType (.ofCodec c)
  | .compileRead s => do
    let c ← LiveCompile.compile reg depth s
    return .reader c
  | .compileWrite s => do
    let c ← LiveCompile.compile reg depth s
    return .writer c
  | .compileSizeOf s => do
    let c ← LiveCompile.compile reg depth s
    return .sizer c

theorem mirrors_runLive (reg : Registry) (call : Call) :
    LiveCompile.Mirrors [] (fun depth => call.runLive reg depth) (call.run reg) := by
  cases call with
  | compileNamed name =>
    exact LiveCompile.mirrors_bind (LiveCompile.mirrors_compileNamed reg name) fun _ =>
      LiveCompile.mirrors_pure _
  | compile s | compileRead s | compileWrite s | compileSizeOf s =>
    exact LiveCompile.mirrors_bind (LiveCompile.mirrors_compile reg s) fun _ =>
      LiveCompile.mirrors_pure _

theorem run_eq (reg : Registry) (call : Call) :
    call.run reg = reg.compile call.schema >>= fun c => pure (call.answer c) := by
  cases call with
  | compileNamed name =>
    rw [run, schema, Registry.compile, compileIn]
    rfl
  | _ => rfl

end Call

/-- What a call on a live session is answered with, and the session that it leaves. -/
structure Step where
  answer : Except SchemaError Call.Answer
  left : LiveSession

/-- The steps that calls on a live session make, one after the other, whether or not they fail. -/
def runAll (reg : Registry) (depth : Nat) : List Call → LiveSession → Option (List Step)
  | [], _ => some []
  | call :: rest, live => do
    let (answer, left) ← (call.runLive reg depth).run.run live
    let steps ← runAll reg depth rest left
    return ⟨answer, left⟩ :: steps

variable {reg : Registry} {session : Session}

theorem outcome_compile (hs : Session.Over reg session) (s : Schema) :
    outcome (reg.compile s) session = outcome (reg.compile s) {} := by
  have sound {session : Session} (h : Session.Over reg session) : Sound reg session :=
    h.remembers fun _ _ hl => Schema.Becomes.of_layer hl
  have hlead : LeadTo reg [] s := fun _ hn => nomatch hn
  exact ((steady_related reg).1 [] s hlead session {} (sound hs) (sound .new)).1

theorem outcome_run (hs : Session.Over reg session) (call : Call) :
    outcome (call.run reg) session = outcome (call.run reg) {} := by
  rw [Call.run_eq, outcome_bind, outcome_bind, outcome_compile hs]
  rfl

theorem over_after_run (hs : Session.Over reg session) (call : Call) :
    Session.Over reg (after (call.run reg) session) := by
  have hafter : after (call.run reg) session = after (reg.compile call.schema) session := by
    rw [Call.run_eq, after_bind]
    cases outcome (reg.compile call.schema) session <;> rfl
  rw [hafter]
  exact hs.next call.schema

theorem runAll_cons {depth : Nat} {call : Call} {rest : List Call} {steps : List Step}
    (hcall : (call.runLive reg depth).run.run ⟨session, []⟩ =
      some (outcome (call.run reg) session, ⟨after (call.run reg) session, []⟩))
    (hrest : reg.runAll depth rest ⟨after (call.run reg) session, []⟩ = some steps) :
    reg.runAll depth (call :: rest) ⟨session, []⟩ =
      some (⟨outcome (call.run reg) session, after (call.run reg) session, []⟩ :: steps) := by
  simp only [runAll, hcall, hrest, bind, Option.bind]
  rfl

/-- A step that answers a call as a new session does, and leaves no name on the stack. -/
structure Step.Answers (reg : Registry) (depth : Nat) (call : Call) (step : Step) : Prop where
  answer_eq : step.answer = outcome (call.run reg) {}
  as_new : ∃ left, (call.runLive reg depth).run.run {} = some (step.answer, left)
  resolving_eq : step.left.resolving = []

theorem runAll_of_over (hs : Session.Over reg session) (calls : List Call) :
    ∃ enough, ∀ depth, enough ≤ depth →
      ∃ steps, reg.runAll depth calls ⟨session, []⟩ = some steps ∧
        List.Forall₂ (Step.Answers reg depth) calls steps := by
  induction calls generalizing session with
  | nil => exact ⟨0, fun _ _ => ⟨[], rfl, .nil⟩⟩
  | cons call rest ih =>
    -- The call has to go deep enough in the session as it is and in a new one.
    obtain ⟨enough, hcall⟩ := call.mirrors_runLive reg session
    obtain ⟨enoughNew, hnew⟩ := call.mirrors_runLive reg {}
    obtain ⟨enoughRest, hrest⟩ := ih (over_after_run hs call)
    refine ⟨max enough (max enoughNew enoughRest), fun depth hd => ?_⟩
    obtain ⟨steps, hsteps, hanswers⟩ := hrest depth (by omega)
    refine ⟨_, runAll_cons (hcall depth (by omega)) hsteps, .cons ?_ hanswers⟩
    have hanswer := outcome_run hs call
    refine { answer_eq := hanswer, as_new := ⟨⟨after (call.run reg) {}, []⟩, ?_⟩, resolving_eq := rfl }
    rw [hanswer]
    exact hnew depth (by omega)

/-- Calls on one session, some of which may fail, all end, and are answered as if each had a new session: by the
same codec, and so by the same operations and the same fixed size, or by the same error, and so in the same
words. Whether it has succeeded or failed, a call leaves no name on the stack. Any number of nested calls will do,
as long as it is enough for these. -/
theorem answered_as_new (reg : Registry) (calls : List Call) :
    ∃ enough, ∀ depth, enough ≤ depth →
      ∃ steps, reg.runAll depth calls {} = some steps ∧
        List.Forall₂ (Step.Answers reg depth) calls steps :=
  runAll_of_over .new calls

end Registry

end PacketCodec
