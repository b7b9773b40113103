import Mathlib.Data.Set.Insert
import PacketCodec.Proofs.Compile.PassedOn
import PacketCodec.Proofs.Compile.Transparency

/-!
# Types compiled once

A session announces a registered type when it goes through its body. A call does so at most once for each type,
however often and however deep the type is referred to, and no call does so for a type that an earlier call has
compiled. What is gone through again is a type inside of which a call has failed.

That is because the names that are announced are neither in work nor remembered, and what compiles is remembered
together with all the names that it leads to.
-/

namespace PacketCodec

namespace Session

variable {session : Session} {name : String}

def remembered (session : Session) : Set String :=
  {name | name ∈ Table.names session.cache}

def announcing (session : Session) (name : String) : Session :=
  { session with events := session.events ++ [.compilingType name] }

def remembering (session : Session) (name : String) (c : Codec) : Session :=
  { session with cache := session.cache.insert name c }

theorem mem_remembered {c : Codec} (h : Table.get? session.cache name = some c) :
    name ∈ session.remembered := by
  by_contra hn
  exact nomatch h.symm.trans ((Table.get?_eq_none_iff _ _).2 hn)

theorem not_mem_remembered (h : Table.get? session.cache name = none) : name ∉ session.remembered :=
  (Table.get?_eq_none_iff _ _).1 h

theorem remembered_remembering (session : Session) (name : String) (c : Codec) :
    (session.remembering name c).remembered = insert name session.remembered := by
  ext other
  simp only [remembered, remembering, Table.names_insert, Set.mem_ofPred_eq, Set.mem_insert_iff]
  split <;> grind

theorem subset_remembering (session : Session) (name : String) (c : Codec) :
    session.remembered ⊆ (session.remembering name c).remembered := by
  rw [remembered_remembering]
  exact Set.subset_insert _ _

theorem mem_remembering (session : Session) (name : String) (c : Codec) :
    name ∈ (session.remembering name c).remembered := by
  rw [remembered_remembering]
  exact Set.mem_insert _ _

/-- A session remembers every name that a remembered name leads to. -/
def Complete (reg : Registry) (session : Session) : Prop :=
  ∀ name ∈ session.remembered, (Schema.ref name).leads reg ⊆ session.remembered

theorem Complete.remembering {reg : Registry} (h : session.Complete reg) {c : Codec}
    (hl : (Schema.ref name).leads reg ⊆ insert name session.remembered) :
    (session.remembering name c).Complete reg := by
  intro other ho
  rw [remembered_remembering] at ho ⊢
  rcases ho with rfl | ho
  · exact hl
  · exact (h other ho).trans (Set.subset_insert _ _)

end Session

namespace Compile

open Session

variable {α β : Type} {reg : Registry} {resolving : List String} {name : String}
  {session session' session'' : Session}

section Bind

variable {m : Compile α} {f : α → Compile β}

theorem outcome_bind_of_ok {a : α} (h : outcome m session = .ok a) :
    outcome (m >>= f) session = outcome (f a) (after m session) := by
  rw [outcome_bind, h]
  rfl

theorem after_bind_of_ok {a : α} (h : outcome m session = .ok a) :
    after (m >>= f) session = after (f a) (after m session) := by
  rw [after_bind, h]

theorem outcome_bind_of_error {e : SchemaError} (h : outcome m session = .error e) :
    outcome (m >>= f) session = .error e := by
  rw [outcome_bind, h]
  rfl

theorem after_bind_of_error {e : SchemaError} (h : outcome m session = .error e) :
    after (m >>= f) session = after m session := by
  rw [after_bind, h]

end Bind

/-- How compiling a name goes. Only a registered name that is neither remembered nor in work is announced, and its
body then compiles or fails. -/
inductive RefRun (reg : Registry) (resolving : List String) (name : String) (session : Session) :
    Except SchemaError Codec → Session → Prop
  | remembered {c : Codec} (h : Table.get? session.cache name = some c) :
      RefRun reg resolving name session (.ok c) session
  | recursive (hnew : Table.get? session.cache name = none) (hn : name ∈ resolving) :
      RefRun reg resolving name session (.error (.here (.recursiveType resolving.reverse name))) session
  | compiled {body : Schema} {c : Codec} (hnew : Table.get? session.cache name = none)
      (hn : name ∉ resolving) (hb : Table.get? reg name = some body)
      (hc : outcome (compileIn reg (name :: resolving) body) (session.announcing name) = .ok c) :
      RefRun reg resolving name session (.ok c)
        ((after (compileIn reg (name :: resolving) body) (session.announcing name)).remembering name c)
  | failed {body : Schema} {e : SchemaError} (hnew : Table.get? session.cache name = none)
      (hn : name ∉ resolving) (hb : Table.get? reg name = some body)
      (he : outcome (compileIn reg (name :: resolving) body) (session.announcing name) = .error e) :
      RefRun reg resolving name session (.error (e.within name))
        (after (compileIn reg (name :: resolving) body) (session.announcing name))
  | builtIn {p : Primitive} (hnew : Table.get? session.cache name = none) (hn : name ∉ resolving)
      (hb : Table.get? reg name = none) (hp : Primitive.ofName? name = some p) :
      RefRun reg resolving name session (.ok (.scalar p)) (session.remembering name (.scalar p))
  | unknown (hnew : Table.get? session.cache name = none) (hn : name ∉ resolving)
      (hb : Table.get? reg name = none) (hp : Primitive.ofName? name = none) :
      RefRun reg resolving name session (.error (.here (.unknownType name))) session

theorem refRun (reg : Registry) (resolving : List String) (name : String) (session : Session) :
    RefRun reg resolving name session (outcome (compileNamedIn reg resolving name) session)
      (after (compileNamedIn reg resolving name) session) := by
  have hget : outcome (get : Compile Session) session = .ok session := rfl
  rw [compileNamedIn_eq, outcome_bind_of_ok hget, after_bind_of_ok hget]
  change RefRun reg resolving name session (outcome _ session) (after _ session)
  cases hnew : Table.get? session.cache name with
  | some c => exact .remembered hnew
  | none =>
    rw [Option.elim_none]
    by_cases hn : name ∈ resolving
    · rw [compileAnewIn_recursive hn]
      exact .recursive hnew hn
    · cases hb : Table.get? reg name with
      | some body =>
        have hreport : outcome (report (.compilingType name)) session = .ok () := rfl
        rw [compileAnewIn_registered hn hb, outcome_bind_of_ok hreport, after_bind_of_ok hreport]
        change RefRun reg resolving name session (outcome _ (session.announcing name))
          (after _ (session.announcing name))
        cases hrun : outcome (compileIn reg (name :: resolving) body) (session.announcing name) with
        | ok c =>
          have hwithin : outcome (within name (compileIn reg (name :: resolving) body))
              (session.announcing name) = .ok c := by rw [outcome_within, hrun]; rfl
          rw [outcome_bind_of_ok hwithin, after_bind_of_ok hwithin]
          exact .compiled hnew hn hb hrun
        | error e =>
          have hwithin : outcome (within name (compileIn reg (name :: resolving) body))
              (session.announcing name) = .error (e.within name) := by rw [outcome_within, hrun]; rfl
          rw [outcome_bind_of_error hwithin, after_bind_of_error hwithin]
          exact .failed hnew hn hb hrun
      | none =>
        cases hp : Primitive.ofName? name with
        | some p =>
          rw [compileAnewIn_builtIn hn hb hp]
          exact .builtIn hnew hn hb hp
        | none =>
          rw [compileAnewIn_unknown hn hb hp]
          exact .unknown hnew hn hb hp

/-- The types inside of which a compilation has failed, if it has. -/
def blamed : Except SchemaError α → List String
  | .ok _ => []
  | .error e => e.path

/-- Names are announced on the way from a session to another: each once, none that is in work or remembered, and
each is remembered in the end unless it is to blame. -/
structure Announces (resolving : List String) (session : Session) (o : Except SchemaError α)
    (session' : Session) (names : List String) : Prop where
  events : session'.events = session.events ++ names.map .compilingType
  nodup : names.Nodup
  fresh : ∀ name ∈ names, name ∉ resolving ∧ name ∉ session.remembered
  settled : ∀ name ∈ names, name ∈ session'.remembered ∨ name ∈ blamed o
  grows : session.remembered ⊆ session'.remembered

namespace Announces

variable {o : Except SchemaError α} {o' : Except SchemaError β} {names names' : List String}

theorem nothing (o : Except SchemaError α) (hevents : session'.events = session.events)
    (hgrows : session.remembered ⊆ session'.remembered) : Announces resolving session o session' [] where
  events := by rw [hevents, List.map_nil, List.append_nil]
  nodup := List.nodup_nil
  fresh := fun _ hm => nomatch hm
  settled := fun _ hm => nomatch hm
  grows := hgrows

theorem append {a : α} (h : Announces resolving session (.ok a) session' names)
    (h' : Announces resolving session' o' session'' names') :
    Announces resolving session o' session'' (names ++ names') := by
  have hdone : ∀ name ∈ names, name ∈ session'.remembered := fun name hm =>
    (h.settled name hm).resolve_right fun hb => nomatch hb
  refine ⟨?_, ?_, ?_, ?_, h.grows.trans h'.grows⟩
  · rw [h'.events, h.events, List.map_append, List.append_assoc]
  · rw [List.nodup_append]
    refine ⟨h.nodup, h'.nodup, ?_⟩
    rintro name hm _ hm' rfl
    exact (h'.fresh name hm').2 (hdone name hm)
  · intro name hm
    rcases List.mem_append.1 hm with hm | hm
    · exact h.fresh name hm
    · exact ⟨(h'.fresh name hm).1, fun hr => (h'.fresh name hm).2 (h.grows hr)⟩
  · intro name hm
    rcases List.mem_append.1 hm with hm | hm
    · exact .inl (h'.grows (hdone name hm))
    · exact h'.settled name hm

theorem cons (h : Announces (name :: resolving) (session.announcing name) o session' names)
    (hnew : Table.get? session.cache name = none) (hn : name ∉ resolving)
    (hevents : session''.events = session'.events) (hgrows : session'.remembered ⊆ session''.remembered)
    (hname : name ∈ session''.remembered ∨ name ∈ blamed o') (hblamed : blamed o ⊆ blamed o') :
    Announces resolving session o' session'' (name :: names) := by
  refine ⟨?_, ?_, ?_, ?_, h.grows.trans hgrows⟩
  · rw [hevents, h.events, announcing, List.append_assoc, List.map_cons, List.singleton_append]
  · exact List.nodup_cons.2 ⟨fun hm => (h.fresh name hm).1 List.mem_cons_self, h.nodup⟩
  · intro other hm
    rcases List.mem_cons.1 hm with rfl | hm
    · exact ⟨hn, not_mem_remembered hnew⟩
    · exact ⟨fun hr => (h.fresh other hm).1 (List.mem_cons_of_mem _ hr), (h.fresh other hm).2⟩
  · intro other hm
    rcases List.mem_cons.1 hm with rfl | hm
    · exact hname
    · exact (h.settled other hm).imp (fun hr => hgrows hr) fun hb => hblamed hb

end Announces

theorem announces_passedOn (reg : Registry) : PassedOn reg fun resolving _ _ m =>
    ∀ session, ∃ names, Announces resolving session (outcome m session) (after m session) names where
  pure a session := ⟨[], .nothing _ rfl subset_rfl⟩
  fault f session := ⟨[], .nothing _ rfl subset_rfl⟩
  subset h _ := h
  bind {_ _ _ _ _ m f} hm hf session := by
    obtain ⟨names, h⟩ := hm session
    cases ho : outcome m session with
    | error e =>
      rw [ho] at h
      rw [outcome_bind_of_error ho, after_bind_of_error ho]
      exact ⟨names, h.events, h.nodup, h.fresh, h.settled, h.grows⟩
    | ok a =>
      rw [ho] at h
      obtain ⟨names', h'⟩ := hf a (after m session)
      rw [outcome_bind_of_ok ho, after_bind_of_ok ho]
      exact ⟨names ++ names', h.append h'⟩
  ref {resolving name} ih session := by
    have hrun := refRun reg resolving name session
    generalize outcome (compileNamedIn reg resolving name) session = o,
      after (compileNamedIn reg resolving name) session = session' at hrun ⊢
    cases hrun with
    | remembered | recursive | unknown => exact ⟨[], .nothing _ rfl subset_rfl⟩
    | builtIn => exact ⟨[], .nothing _ rfl (subset_remembering _ _ _)⟩
    | @compiled body c hnew hn hb hc =>
      obtain ⟨names, h⟩ := ih hn body hb (session.announcing name)
      rw [hc] at h
      exact ⟨name :: names, h.cons hnew hn rfl (subset_remembering _ _ _)
        (.inl (mem_remembering _ _ _)) (List.nil_subset _)⟩
    | @failed body e hnew hn hb he =>
      obtain ⟨names, h⟩ := ih hn body hb (session.announcing name)
      rw [he] at h
      exact ⟨name :: names, h.cons hnew hn rfl subset_rfl (.inr List.mem_cons_self)
        (List.subset_cons_self _ _)⟩

/-- Between sessions that remember all that their names lead to, nothing is forgotten, and a success adds all the
names that it leads to. -/
structure Completes (reg : Registry) (names : Set String) (session : Session) (o : Except SchemaError α)
    (session' : Session) : Prop where
  grows : session.remembered ⊆ session'.remembered
  complete : session'.Complete reg
  reaches : ∀ a, o = .ok a → names ⊆ session'.remembered

theorem Completes.of_remembering (hgrows : session.remembered ⊆ session'.remembered)
    (hs : session'.Complete reg) (hl : (Schema.ref name).leads reg ⊆ insert name session'.remembered)
    (o : Except SchemaError α) (c : Codec) :
    Completes reg ((Schema.ref name).leads reg) session o (session'.remembering name c) where
  grows := hgrows.trans (subset_remembering _ _ _)
  complete := hs.remembering hl
  reaches := fun _ _ => by rwa [remembered_remembering]

theorem completes_passedOn (reg : Registry) : PassedOn reg fun _ names _ m =>
    ∀ session, session.Complete reg → Completes reg names session (outcome m session) (after m session) where
  pure a session hs := ⟨subset_rfl, hs, fun _ _ => Set.empty_subset _⟩
  fault f session hs := ⟨subset_rfl, hs, fun _ h => nomatch h⟩
  subset h hsub session hs :=
    ⟨(h session hs).grows, (h session hs).complete, fun a ha => hsub.trans ((h session hs).reaches a ha)⟩
  bind {_ names names' _ _ m f} hm hf session hs := by
    have h := hm session hs
    cases ho : outcome m session with
    | error e =>
      rw [outcome_bind_of_error ho, after_bind_of_error ho]
      exact ⟨h.grows, h.complete, fun _ he => nomatch he⟩
    | ok a =>
      have h' := hf a _ h.complete
      rw [outcome_bind_of_ok ho, after_bind_of_ok ho]
      exact ⟨h.grows.trans h'.grows, h'.complete, fun b hb =>
        Set.union_subset ((h.reaches a ho).trans h'.grows) (h'.reaches b hb)⟩
  ref {resolving name} ih session hs := by
    have hrun := refRun reg resolving name session
    generalize outcome (compileNamedIn reg resolving name) session = o,
      after (compileNamedIn reg resolving name) session = session' at hrun ⊢
    cases hrun with
    | remembered h => exact ⟨subset_rfl, hs, fun _ _ => hs name (mem_remembered h)⟩
    | recursive | unknown => exact ⟨subset_rfl, hs, fun _ h => nomatch h⟩
    | builtIn _ _ hb =>
      refine .of_remembering subset_rfl hs (Schema.leads_ref_subset (Set.mem_insert _ _) ?_) _ _
      exact fun body h => nomatch hb.symm.trans h
    | @compiled body c hnew hn hb hc =>
      have h := ih hn body hb (session.announcing name) hs
      have hgrows : session.remembered ⊆ _ := h.grows
      refine .of_remembering hgrows h.complete (Schema.leads_ref_subset (Set.mem_insert _ _) ?_) _ _
      intro body' hb'
      cases hb.symm.trans hb'
      exact (h.reaches c hc).trans (Set.subset_insert _ _)
    | @failed body e hnew hn hb he =>
      have h := ih hn body hb (session.announcing name) hs
      exact ⟨h.grows, h.complete, fun _ h => nomatch h⟩

end Compile

/-- The name that an event announces. -/
def Event.announced? : Event → Option String
  | .compilingType name => some name
  | _ => none

namespace Registry

open Compile

/-- The session after calls on it, one after the other, whether or not they fail. -/
def afterAll (reg : Registry) : List Call → Session → Session
  | [], session => session
  | call :: rest, session => afterAll reg rest (after (call.run reg) session)

namespace Call

/-- The names that a call announces: those of the events that it adds to the session. -/
def announced (reg : Registry) (call : Call) (session : Session) : List String :=
  ((after (call.run reg) session).events.drop session.events.length).filterMap Event.announced?

/-- A call has compiled a name: it has a result, and the name is one that its schema leads to, or it has announced
the name and does not fail inside of that type. -/
def Compiles (reg : Registry) (call : Call) (session : Session) (name : String) : Prop :=
  (∃ a, outcome (call.run reg) session = .ok a ∧ name ∈ call.schema.leads reg) ∨
    (name ∈ call.announced reg session ∧ name ∉ blamed (outcome (call.run reg) session))

end Call

variable {reg : Registry} {call : Call} {session : Session}

private theorem passedOn_run {P : List String → Set String → (α : Type) → Compile α → Prop}
    (h : PassedOn reg P) (call : Call) : P [] (call.schema.leads reg) Call.Answer (call.run reg) := by
  rw [Call.run_eq]
  exact h.map (h.compileIn [] call.schema) call.answer

theorem announces_run (reg : Registry) (call : Call) (session : Session) :
    Announces [] session (outcome (call.run reg) session) (after (call.run reg) session)
      (call.announced reg session) := by
  obtain ⟨names, h⟩ := passedOn_run (announces_passedOn reg) call session
  have hnames : call.announced reg session = names := by
    rw [Call.announced, h.events, List.drop_left, List.filterMap_map]
    exact List.filterMap_some
  rwa [hnames]

theorem completes_run (hs : session.Complete reg) (call : Call) :
    Completes reg (call.schema.leads reg) session (outcome (call.run reg) session)
      (after (call.run reg) session) :=
  passedOn_run (completes_passedOn reg) call session hs

theorem complete_afterAll (hs : session.Complete reg) (calls : List Call) :
    (reg.afterAll calls session).Complete reg := by
  induction calls generalizing session with
  | nil => exact hs
  | cons call rest ih => exact ih (completes_run hs call).complete

theorem remembered_afterAll (reg : Registry) (calls : List Call) (session : Session) :
    session.remembered ⊆ (reg.afterAll calls session).remembered := by
  induction calls generalizing session with
  | nil => exact subset_rfl
  | cons call rest ih => exact (announces_run reg call session).grows.trans (ih _)

theorem afterAll_append (reg : Registry) (calls calls' : List Call) (session : Session) :
    reg.afterAll (calls ++ calls') session = reg.afterAll calls' (reg.afterAll calls session) := by
  induction calls generalizing session with
  | nil => rfl
  | cons call rest ih => exact ih _

theorem Call.Compiles.remembered (hs : session.Complete reg) {name : String}
    (h : call.Compiles reg session name) : name ∈ (after (call.run reg) session).remembered := by
  rcases h with ⟨a, ha, hl⟩ | ⟨hm, hb⟩
  · exact (completes_run hs call).reaches a ha hl
  · exact ((announces_run reg call session).settled name hm).resolve_right hb

/-- A call adds nothing to a session but announcements of names, of none twice. However calls go on after one that
has compiled a name, and whether or not they fail, no later call announces that name. -/
theorem compiled_once (reg : Registry) :
    (∀ (call : Call) (session : Session),
      (after (call.run reg) session).events =
          session.events ++ (call.announced reg session).map .compilingType ∧
        (call.announced reg session).Nodup) ∧
      ∀ (before : List Call) (done : Call) (between : List Call) (call : Call) (name : String),
        done.Compiles reg (reg.afterAll before {}) name →
          name ∉ call.announced reg (reg.afterAll (before ++ done :: between) {}) := by
  refine ⟨fun call session => ?_, fun before done between call name hdone hm => ?_⟩
  · have h := announces_run reg call session
    exact ⟨h.events, h.nodup⟩
  · have hnew : Session.Complete reg {} := fun _ hr => nomatch hr
    have hremembered := hdone.remembered (complete_afterAll hnew before)
    rw [afterAll_append] at hm
    exact ((announces_run reg call _).fresh name hm).2
      (remembered_afterAll reg between _ hremembered)

section Goods

private def bundle (second : String) : Schema :=
  .container [⟨"first", .ref "item", false⟩, ⟨"second", .ref second, false⟩]

/-- A pair of items, and a type that has an item and refers to a type that is missing. -/
private def goods : Registry :=
  [("item", .primitive .u8), ("pair", bundle "item"), ("broken", bundle "missing")]

private theorem compileIn_bundle (reg : Registry) (resolving : List String) (second : String) :
    compileIn reg resolving (bundle second) = (do
      let c ← compileNamedIn reg resolving "item"
      let d ← compileNamedIn reg resolving second
      return .container [("first", c), ("second", d)]) := by
  have hflat : Schema.inlineFields [⟨"first", .ref "item", false⟩, ⟨"second", .ref second, false⟩] =
      .ok [⟨"first", .ref "item", false⟩, ⟨"second", .ref second, false⟩] := rfl
  rw [bundle, compileIn_container _ _ hflat]
  simp [compileFieldsIn, compileIn]

private def afterBroken : Session :=
  ⟨[("item", .scalar .u8)], [.compilingType "broken", .compilingType "item"]⟩

private theorem run_broken : ((Call.compileNamed "broken").run goods).run.run {} =
    (.error ⟨["broken"], .unknownType "missing"⟩, afterBroken) := by
  have hmissing : Primitive.ofName? "missing" = none := rfl
  simp only [Call.run, Registry.compileNamed, goods, compileNamedIn, compileIn, compileIn_bundle,
    Table.get?_cons, Table.get?_nil, hmissing, String.reduceEq, ↓dreduceIte, List.mem_cons,
    List.not_mem_nil, or_self, ↓reduceDIte]
  rfl

private theorem after_pair : after ((Call.compileNamed "pair").run goods) afterBroken =
    ⟨[("item", .scalar .u8), ("pair", .container [("first", .scalar .u8), ("second", .scalar .u8)])],
      afterBroken.events ++ [.compilingType "pair"]⟩ := by
  simp only [Call.run, Registry.compileNamed, goods, compileNamedIn, compileIn, compileIn_bundle,
    Table.get?_cons, String.reduceEq, ↓dreduceIte, List.mem_cons, List.not_mem_nil, or_self, ↓reduceDIte]
  rfl

theorem goods_compiled_once :
    (Call.compileNamed "broken").announced goods {} = ["broken", "item"] ∧
      (Call.compileNamed "broken").Compiles goods {} "item" ∧
      (Call.compileNamed "pair").announced goods (goods.afterAll [.compileNamed "broken"] {}) =
        ["pair"] ∧
      ∀ (between : List Call) (call : Call),
        "item" ∉ call.announced goods (goods.afterAll (.compileNamed "broken" :: between) {}) := by
  have hannounced : (Call.compileNamed "broken").announced goods {} = ["broken", "item"] := by
    rw [Call.announced, after, run_broken]
    rfl
  have hblamed : blamed (outcome ((Call.compileNamed "broken").run goods) {}) = ["broken"] := by
    rw [outcome, run_broken]
    rfl
  have hcompiles : (Call.compileNamed "broken").Compiles goods {} "item" :=
    .inr ⟨by simp [hannounced], by simp [hblamed]⟩
  refine ⟨hannounced, hcompiles, ?_, fun between call => ?_⟩
  · rw [afterAll, afterAll, after, run_broken, Call.announced, after_pair]
    rfl
  · exact (compiled_once goods).2 [] _ between call _ hcompiles

end Goods

end Registry

end PacketCodec
