import Mathlib.Data.List.Forall2
import PacketCodec.Proofs.Compile.Induction
import PacketCodec.Proofs.Compile.Keeps

/-!
# Compilation layer by layer

Each step of compilation puts a codec together from the codecs of the parts of a schema. A relation
that every such step passes on from the parts to the whole holds between each schema and the codec
that it compiles to, in every session.
-/

namespace PacketCodec

/-- The keys that the branches of a switch are selected by. -/
def branchKeys (branches : List (String × Schema)) : List String :=
  branches.map fun branch => BranchKey.normalize branch.1

/-- Members of a container become entries by `R`, in order and under their names. -/
def MembersBecome (R : Schema → Codec → Prop) :
    List (Field Schema) → List (String × Codec) → Prop :=
  List.Forall₂ fun field entry => field.name = entry.1 ∧ R field.type entry.2

/-- Branches of a switch become entries by `R`, in order and under their keys. -/
def BranchesBecome (R : Schema → Codec → Prop) :
    List (String × Schema) → List (String × Codec) → Prop :=
  List.Forall₂ fun branch entry => BranchKey.normalize branch.1 = entry.1 ∧ R branch.2 entry.2

section Entries

variable {P : Schema → Prop} {Q : Codec → Prop} {R : Schema → Codec → Prop}
  {fields : List (Field Schema)} {branches : List (String × Schema)}
  {entries : List (String × Codec)}

private theorem forall_left_of_forall₂ {α β : Type} {S : α → β → Prop} {T : α → Prop}
    {as : List α} {bs : List β} (hS : ∀ a b, S a b → T a) (h : List.Forall₂ S as bs) :
    ∀ a ∈ as, T a := by
  have hs : List.Forall₂ (fun a b => T a ∧ S a b) as bs :=
    h.imp fun a b hab => ⟨hS a b hab, hab⟩
  exact ((List.forall₂_and_left as bs).1 hs).1

theorem MembersBecome.forall_left (h : MembersBecome (fun s _ => P s) fields entries) :
    ∀ field ∈ fields, P field.type :=
  forall_left_of_forall₂ (fun _ _ hr => hr.2) h

theorem BranchesBecome.forall_left (h : BranchesBecome (fun s _ => P s) branches entries) :
    ∀ branch ∈ branches, P branch.2 :=
  forall_left_of_forall₂ (fun _ _ hr => hr.2) h

theorem MembersBecome.forall_right (h : MembersBecome (fun _ c => Q c) fields entries) :
    ∀ entry ∈ entries, Q entry.2 :=
  forall_left_of_forall₂ (fun _ _ hr => hr.2) (List.Forall₂.flip h)

theorem BranchesBecome.forall_right (h : BranchesBecome (fun _ c => Q c) branches entries) :
    ∀ entry ∈ entries, Q entry.2 :=
  forall_left_of_forall₂ (fun _ _ hr => hr.2) (List.Forall₂.flip h)

theorem BranchesBecome.names_eq (h : BranchesBecome R branches entries) :
    Table.names entries = branchKeys branches := by
  induction h with
  | nil => rfl
  | cons hr _ ih =>
    simp only [Table.names, branchKeys, List.map_cons] at ih ⊢
    rw [hr.1, ih]

end Entries

/-- The default of a switch becomes a codec by `R`; one that is left out stands for no bytes. -/
def DefaultBecomes (R : Schema → Codec → Prop) : Option Schema → Codec → Prop
  | some t, c => R t c
  | none, c => c = .scalar .void

/-- The codec that a schema becomes in one step when its parts become codecs by `R`. -/
inductive Layer (reg : Registry) (R : Schema → Codec → Prop) : Schema → Codec → Prop
  | registered {name : String} {body : Schema} {c : Codec}
      (h : Table.get? reg name = some body) (hb : R body c) : Layer reg R (.ref name) c
  | builtIn {name : String} {p : Primitive}
      (h : Table.get? reg name = none) (hp : Primitive.ofName? name = some p) :
      Layer reg R (.ref name) (.scalar p)
  | primitive {p : Primitive} : Layer reg R (.primitive p) (.scalar p)
  | text {t : Schema} {count : Codec} (h : R t count) : Layer reg R (.text t) (.text count)
  | block {n : UInt64} : Layer reg R (.buffer (some n) none) (.block n.toNat)
  | countedBlock {t : Schema} {count : Codec} (h : R t count) :
      Layer reg R (.buffer none (some t)) (.countedBlock count)
  | option {t : Schema} {inner : Codec} (h : R t inner) :
      Layer reg R (.option t) (.option inner)
  | array {e : Schema} {n : UInt64} {element : Codec} (h : R e element) :
      Layer reg R (.array e (some n) none) (.array element n.toNat)
  | countedArray {e t : Schema} {count element : Codec} (ht : R t count) (he : R e element) :
      Layer reg R (.array e none (some t)) (.countedArray count element)
  | container {fields flat : List (Field Schema)} {entries : List (String × Codec)}
      (h : Schema.inlineFields fields = .ok flat) (he : MembersBecome R flat entries) :
      Layer reg R (.container fields) (.container entries)
  | switch {on : Discriminant} {branches : List (String × Schema)} {default : Option Schema}
      {entries : List (String × Codec)} {alternative : Codec}
      (hk : (branchKeys branches).Nodup) (he : BranchesBecome R branches entries)
      (hd : DefaultBecomes R default alternative) :
      Layer reg R (.switch on branches default) (.ofBranches on entries alternative)

/-- Every codec that a session remembers is related to the reference that it stands for. -/
def Session.Remembers (R : Schema → Codec → Prop) (session : Session) : Prop :=
  ∀ name c, Table.get? session.cache name = some c → R (.ref name) c

namespace Compile

variable {R : Schema → Codec → Prop}

private theorem keeps_remember {name : String} {c : Codec} (h : R (.ref name) c) :
    Keeps (Session.Remembers R) (fun _ => True) (remember name c) := by
  apply keeps_modify
  intro session hs other d hd
  rw [Table.get?_insert] at hd
  split at hd
  · rename_i he
    cases hd
    exact he ▸ h
  · exact hs other d hd

/-- What is known of the entries that branches compile to while some keys are taken. -/
private def FreshBranches (R : Schema → Codec → Prop) (taken : List String)
    (branches : List (String × Schema)) (entries : List (String × Codec)) : Prop :=
  (∀ key ∈ branchKeys branches, key ∉ taken) ∧ (branchKeys branches).Nodup ∧
    BranchesBecome R branches entries

private theorem freshBranches_cons {taken : List String} {declared : String} {t : Schema}
    {rest : List (String × Schema)} {c : Codec} {entries : List (String × Codec)}
    (hk : BranchKey.normalize declared ∉ taken) (hc : R t c)
    (hr : FreshBranches R (BranchKey.normalize declared :: taken) rest entries) :
    FreshBranches R taken ((declared, t) :: rest) ((BranchKey.normalize declared, c) :: entries) := by
  obtain ⟨hf, hn, he⟩ := hr
  refine ⟨?_, List.nodup_cons.2 ⟨?_, hn⟩, .cons ⟨rfl, hc⟩ he⟩
  · intro key hkey
    rcases List.mem_cons.1 hkey with rfl | hkey
    · exact hk
    · exact fun ht => hf key hkey (List.mem_cons_of_mem _ ht)
  · exact fun hd => hf _ hd List.mem_cons_self

theorem keeps_related {reg : Registry} (closed : ∀ s c, Layer reg R s c → R s c) :
    (∀ resolving s, Keeps (Session.Remembers R) (R s) (compileIn reg resolving s)) ∧
    (∀ resolving taken branches, Keeps (Session.Remembers R) (FreshBranches R taken branches)
      (compileBranchesIn reg resolving taken branches)) ∧
    (∀ resolving fields, Keeps (Session.Remembers R) (MembersBecome R fields)
      (compileFieldsIn reg resolving fields)) ∧
    (∀ resolving name, Keeps (Session.Remembers R) (R (.ref name))
      (compileNamedIn reg resolving name)) := by
  apply compileIn_induction reg
    (fun _ s m => Keeps (Session.Remembers R) (R s) m)
    (fun _ taken branches m => Keeps (Session.Remembers R) (FreshBranches R taken branches) m)
    (fun _ fields m => Keeps (Session.Remembers R) (MembersBecome R fields) m)
    (fun _ name m => Keeps (Session.Remembers R) (R (.ref name)) m)
  case ref =>
    intro resolving name m ih
    exact ih
  case primitive =>
    intro resolving p
    exact keeps_pure (closed _ _ .primitive)
  case text =>
    intro resolving t m ih
    exact keeps_bind ih fun _ h => keeps_pure (closed _ _ (.text h))
  case bufferFault =>
    intro resolving count countType f _
    exact keeps_fault f
  case block =>
    intro resolving n
    exact keeps_pure (closed _ _ .block)
  case countedBlock =>
    intro resolving t m ih
    exact keeps_bind ih fun _ h => keeps_pure (closed _ _ (.countedBlock h))
  case option =>
    intro resolving t m ih
    exact keeps_bind ih fun _ h => keeps_pure (closed _ _ (.option h))
  case arrayFault =>
    intro resolving e count countType f _
    exact keeps_fault f
  case array =>
    intro resolving e n m ih
    exact keeps_bind ih fun _ h => keeps_pure (closed _ _ (.array h))
  case countedArray =>
    intro resolving e t mCount mElement ihCount ihElement
    exact keeps_bind ihCount fun _ hc => keeps_bind ihElement fun _ he =>
      keeps_pure (closed _ _ (.countedArray hc he))
  case containerFault =>
    intro resolving fields f _
    exact keeps_fault f
  case container =>
    intro resolving fields flat m h ih
    exact keeps_bind ih fun _ he => keeps_pure (closed _ _ (.container h he))
  case switch =>
    intro resolving on branches default mBranches ihBranches ihDefault
    apply keeps_bind ihBranches
    intro entries hb
    have hd : Keeps (Session.Remembers R) (DefaultBecomes R default)
        (compileDefaultIn reg resolving default) := by
      cases default with
      | none => exact keeps_pure rfl
      | some t => exact ihDefault t rfl
    exact keeps_bind hd fun _ ha => keeps_pure (closed _ _ (.switch hb.2.1 hb.2.2 ha))
  case noBranch =>
    intro resolving taken
    refine keeps_pure ⟨?_, List.nodup_nil, List.Forall₂.nil⟩
    exact fun _ h => nomatch h
  case takenBranch =>
    intro resolving taken declared t rest _
    exact keeps_fault _
  case freeBranch =>
    intro resolving taken declared t rest m mRest hk ihType ihRest
    exact keeps_bind ihType fun _ hc => keeps_bind ihRest fun _ hr =>
      keeps_pure (freshBranches_cons hk hc hr)
  case noField =>
    intro resolving
    exact keeps_pure List.Forall₂.nil
  case field =>
    intro resolving field rest m mRest ihType ihRest
    exact keeps_bind ihType fun _ hc => keeps_bind ihRest fun _ hr =>
      keeps_pure (List.Forall₂.cons ⟨rfl, hc⟩ hr)
  case name =>
    -- A name is remembered, in work already, registered, a primitive, or unknown.
    intro resolving name ih
    rw [compileNamedIn_eq]
    apply keeps_bind keeps_get
    intro session hs
    cases hc : Table.get? session.cache name with
    | some c => exact keeps_pure (hs name c hc)
    | none =>
      rw [Option.elim_none]
      by_cases hn : name ∈ resolving
      · rw [compileAnewIn_recursive hn]
        exact keeps_fault _
      · cases hb : Table.get? reg name with
        | some body =>
          have hreport : Keeps (Session.Remembers R) (fun _ => True)
              (report (.compilingType name)) := keeps_modify fun _ h => h
          rw [compileAnewIn_registered hn hb]
          apply keeps_bind hreport
          intro _ _
          apply keeps_bind (keeps_within name (ih hn body hb))
          intro c hc
          have hr := closed _ _ (.registered hb hc)
          exact keeps_bind (keeps_remember hr) fun _ _ => keeps_pure hr
        | none =>
          cases hp : Primitive.ofName? name with
          | some p =>
            have hr := closed _ _ (.builtIn hb hp)
            rw [compileAnewIn_builtIn hn hb hp]
            exact keeps_bind (keeps_remember hr) fun _ _ => keeps_pure hr
          | none =>
            rw [compileAnewIn_unknown hn hb hp]
            exact keeps_fault _

end Compile

/-- A relation that every step of compilation passes on holds between a schema and what it compiles
to, if it holds between the names that the session remembers and their codecs; the session that is
left remembers only such codecs again. -/
theorem Registry.keeps_compile {reg : Registry} {R : Schema → Codec → Prop}
    (closed : ∀ s c, Layer reg R s c → R s c) (s : Schema) :
    Compile.Keeps (Session.Remembers R) (R s) (reg.compile s) :=
  (Compile.keeps_related closed).1 [] s

end PacketCodec
