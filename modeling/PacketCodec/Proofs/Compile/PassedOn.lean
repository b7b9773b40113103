import Mathlib.Data.Set.Basic
import PacketCodec.Proofs.Compile.Acceptance

/-!
# What compilations pass on

A compilation is put together of results, faults, sequences and references. A property that all of these pass on,
given the names that are in work and those that a schema leads to, holds of compiling every schema.
-/

namespace PacketCodec

open Relation

namespace Schema

variable {reg : Registry} {s t : Schema} {name : String} {names : Set String}

/-- The names that compiling a schema leads to, through any number of parts and references. -/
def leads (reg : Registry) (s : Schema) : Set String :=
  {name | ReflTransGen (Uses reg) s (.ref name)}

theorem leads_subset (h : ∀ name, s ≠ .ref name) (hu : ∀ t, Uses reg s t → t.leads reg ⊆ names) :
    s.leads reg ⊆ names := by
  intro name hl
  cases ReflTransGen.cases_head hl with
  | inl he => exact absurd he (h name)
  | inr ht =>
    obtain ⟨t, hst, htn⟩ := ht
    exact hu t hst htn

theorem leads_ref_subset (hn : name ∈ names)
    (hb : ∀ body, Table.get? reg name = some body → body.leads reg ⊆ names) :
    (ref name).leads reg ⊆ names := by
  intro other hl
  cases ReflTransGen.cases_head hl with
  | inl he =>
    cases he
    exact hn
  | inr ht =>
    obtain ⟨body, hu, hbody⟩ := ht
    cases hu with
    | body h => exact hb body h hbody

/-- The names that compiling any of some schemas leads to. -/
def leadsOf (reg : Registry) (types : List Schema) : Set String :=
  {name | ∃ t ∈ types, name ∈ t.leads reg}

theorem leads_subset_leadsOf {types : List Schema} (h : t ∈ types) : t.leads reg ⊆ leadsOf reg types :=
  fun _ hn => ⟨t, h, hn⟩

theorem leadsOf_nil : leadsOf reg [] = ∅ := by
  ext name
  simp [leadsOf]

theorem leadsOf_cons (t : Schema) (types : List Schema) :
    leadsOf reg (t :: types) = t.leads reg ∪ leadsOf reg types := by
  ext name
  simp [leadsOf]

end Schema

namespace Compile

variable {α β : Type}

/-- A property of compilations, given the names in work and the names that a compilation leads to, is passed on
by all that compilations are put together of. -/
structure PassedOn (reg : Registry)
    (P : List String → Set String → (α : Type) → Compile α → Prop) : Prop where
  pure : ∀ {resolving α} (a : α), P resolving ∅ α (pure a)
  fault : ∀ {resolving names α} (f : SchemaFault), P resolving names α (fault f)
  bind : ∀ {resolving names names' α β} {m : Compile α} {f : α → Compile β}, P resolving names α m →
    (∀ a, P resolving names' β (f a)) → P resolving (names ∪ names') β (m >>= f)
  subset : ∀ {resolving names names' α} {m : Compile α}, P resolving names α m → names' ⊆ names →
    P resolving names' α m
  ref : ∀ {resolving name},
    (name ∉ resolving → ∀ body, Table.get? reg name = some body →
      P (name :: resolving) (body.leads reg) Codec (compileIn reg (name :: resolving) body)) →
    P resolving ((Schema.ref name).leads reg) Codec (compileNamedIn reg resolving name)

namespace PassedOn

variable {reg : Registry} {P : List String → Set String → (α : Type) → Compile α → Prop}
  {resolving : List String} {names names' : Set String}

theorem map (h : PassedOn reg P) {m : Compile α} (hm : P resolving names α m) (f : α → β) :
    P resolving names β (m >>= fun a => Pure.pure (f a)) :=
  h.subset (h.bind hm fun a => h.pure (f a)) Set.subset_union_left

theorem leaf (h : PassedOn reg P) {s : Schema} (hs : ∀ name, s ≠ .ref name)
    (hu : ∀ t, ¬ Schema.Uses reg s t) (c : Codec) :
    P resolving (s.leads reg) Codec (Pure.pure c) :=
  h.subset (h.pure c) (Schema.leads_subset hs fun t ht => absurd ht (hu t))

theorem wrapper (h : PassedOn reg P) {s t : Schema} (hs : ∀ name, s ≠ .ref name)
    (hu : ∀ t', Schema.Uses reg s t' → t' = t) {m : Compile Codec} (hm : P resolving (t.leads reg) Codec m)
    (f : Codec → Codec) : P resolving (s.leads reg) Codec (m >>= fun c => Pure.pure (f c)) :=
  h.subset (h.map hm f) (Schema.leads_subset hs fun t' ht => by rw [hu t' ht])

private theorem compiled (h : PassedOn reg P) :
    (∀ resolving s, P resolving (s.leads reg) Codec (compileIn reg resolving s)) ∧
    (∀ resolving taken branches, P resolving (Schema.leadsOf reg (branches.map Prod.snd)) _
      (compileBranchesIn reg resolving taken branches)) ∧
    (∀ resolving fields, P resolving (Schema.leadsOf reg (fields.map Field.type)) _
      (compileFieldsIn reg resolving fields)) ∧
    (∀ resolving name, P resolving ((Schema.ref name).leads reg) Codec
      (compileNamedIn reg resolving name)) := by
  apply compileIn_induction reg
    (fun resolving s m => P resolving (s.leads reg) Codec m)
    (fun resolving _ branches m => P resolving (Schema.leadsOf reg (branches.map Prod.snd)) _ m)
    (fun resolving fields m => P resolving (Schema.leadsOf reg (fields.map Field.type)) _ m)
    (fun resolving name m => P resolving ((Schema.ref name).leads reg) Codec m)
  case ref =>
    intro resolving name m ih
    exact ih
  case primitive =>
    intro resolving p
    exact h.leaf (by simp) (fun t ht => by cases ht) _
  case text =>
    intro resolving t m ih
    exact h.wrapper (by simp) (fun t ht => by cases ht; rfl) ih _
  case bufferFault =>
    intro resolving count countType f _
    exact h.fault f
  case block =>
    intro resolving n
    exact h.leaf (by simp) (fun t ht => by cases ht) _
  case countedBlock =>
    intro resolving t m ih
    exact h.wrapper (by simp) (fun t ht => by cases ht; rfl) ih _
  case option =>
    intro resolving t m ih
    exact h.wrapper (by simp) (fun t ht => by cases ht; rfl) ih _
  case arrayFault =>
    intro resolving e count countType f _
    exact h.fault f
  case array =>
    intro resolving e n m ih
    exact h.wrapper (by simp) (fun t ht => by cases ht; rfl) ih _
  case countedArray =>
    intro resolving e t mCount mElement ihCount ihElement
    refine h.subset (h.bind ihCount fun _ => h.map ihElement _)
      (Schema.leads_subset (by simp) fun t ht => ?_)
    cases ht with
    | element => exact Set.subset_union_right
    | arrayCount => exact Set.subset_union_left
  case containerFault =>
    intro resolving fields f _
    exact h.fault f
  case container =>
    intro resolving fields flat m hflat ih
    refine h.subset (h.map ih _) (Schema.leads_subset (by simp) fun t ht => ?_)
    cases ht with
    | member hother hm =>
      cases hflat.symm.trans hother
      exact Schema.leads_subset_leadsOf (List.mem_map_of_mem hm)
  case switch =>
    intro resolving on branches default mBranches ihBranches ihDefault
    have hdefault : P resolving (Schema.leadsOf reg default.toList) Codec
        (compileDefaultIn reg resolving default) := by
      cases default with
      | none =>
        rw [Option.toList_none, Schema.leadsOf_nil]
        exact h.pure _
      | some t =>
        rw [Option.toList_some, Schema.leadsOf_cons, Schema.leadsOf_nil, Set.union_empty]
        exact ihDefault t rfl
    refine h.subset (h.bind ihBranches fun _ => h.map hdefault _)
      (Schema.leads_subset (by simp) fun t ht => ?_)
    cases ht with
    | branch hm =>
      exact (Schema.leads_subset_leadsOf (List.mem_map_of_mem hm)).trans Set.subset_union_left
    | default =>
      exact (Schema.leads_subset_leadsOf List.mem_cons_self).trans Set.subset_union_right
  case noBranch =>
    intro resolving taken
    rw [List.map_nil, Schema.leadsOf_nil]
    exact h.pure []
  case takenBranch =>
    intro resolving taken declared t rest _
    exact h.fault _
  case freeBranch =>
    intro resolving taken declared t rest m mRest _ ihType ihRest
    rw [List.map_cons, Schema.leadsOf_cons]
    exact h.bind ihType fun _ => h.map ihRest _
  case noField =>
    intro resolving
    rw [List.map_nil, Schema.leadsOf_nil]
    exact h.pure []
  case field =>
    intro resolving field rest m mRest ihType ihRest
    rw [List.map_cons, Schema.leadsOf_cons]
    exact h.bind ihType fun _ => h.map ihRest _
  case name =>
    intro resolving name ih
    exact h.ref ih

/-- Compiling a schema has every property that is passed on. -/
theorem compileIn (h : PassedOn reg P) (resolving : List String) (s : Schema) :
    P resolving (s.leads reg) Codec (compileIn reg resolving s) :=
  h.compiled.1 resolving s

end PassedOn

end Compile

end PacketCodec
