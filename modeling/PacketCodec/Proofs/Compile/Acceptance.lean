import Mathlib.Logic.Relation
import PacketCodec.Proofs.Compile.Layer

/-!
# Which schemas compile

A schema is well-formed over a registry when finitely many steps derive it from its parts, references
being followed. Compilation in a new session accepts exactly these schemas.

Following references out of a well-formed schema never leads back to it, so the names in work never
stop it; and whatever compiles, or is remembered, has been derived on the way.
-/

namespace PacketCodec

namespace Schema

/-- The schemas that finitely many steps derive from their parts. -/
inductive WellFormed (reg : Registry) : Schema → Prop
  /-- A reference to a registered type, whether or not a primitive has its name. -/
  | registered {name : String} {body : Schema} (h : Table.get? reg name = some body)
      (hb : WellFormed reg body) : WellFormed reg (.ref name)
  | builtIn {name : String} {p : Primitive} (h : Table.get? reg name = none)
      (hp : Primitive.ofName? name = some p) : WellFormed reg (.ref name)
  | primitive (p : Primitive) : WellFormed reg (.primitive p)
  | text {t : Schema} (h : WellFormed reg t) : WellFormed reg (.text t)
  | block (n : UInt64) : WellFormed reg (.buffer (some n) none)
  | countedBlock {t : Schema} (h : WellFormed reg t) : WellFormed reg (.buffer none (some t))
  | option {t : Schema} (h : WellFormed reg t) : WellFormed reg (.option t)
  | array {e : Schema} (n : UInt64) (h : WellFormed reg e) :
      WellFormed reg (.array e (some n) none)
  | countedArray {e t : Schema} (ht : WellFormed reg t) (he : WellFormed reg e) :
      WellFormed reg (.array e none (some t))
  | container {fields flat : List (Field Schema)} (h : inlineFields fields = .ok flat)
      (hf : ∀ field ∈ flat, WellFormed reg field.type) : WellFormed reg (.container fields)
  | switch {on : Discriminant} {branches : List (String × Schema)} {default : Option Schema}
      (hk : (branchKeys branches).Nodup) (hb : ∀ branch ∈ branches, WellFormed reg branch.2)
      (hd : ∀ t, default = some t → WellFormed reg t) :
      WellFormed reg (.switch on branches default)

/-- The schemas that compiling a schema leads to directly. -/
inductive Uses (reg : Registry) : Schema → Schema → Prop
  | body {name : String} {body : Schema} (h : Table.get? reg name = some body) :
      Uses reg (.ref name) body
  | textCount (t : Schema) : Uses reg (.text t) t
  | bufferCount (count : Option UInt64) (t : Schema) : Uses reg (.buffer count (some t)) t
  | inner (t : Schema) : Uses reg (.option t) t
  | element (e : Schema) (count : Option UInt64) (t : Option Schema) : Uses reg (.array e count t) e
  | arrayCount (e : Schema) (count : Option UInt64) (t : Schema) :
      Uses reg (.array e count (some t)) t
  | member {fields flat : List (Field Schema)} {field : Field Schema}
      (h : inlineFields fields = .ok flat) (hf : field ∈ flat) :
      Uses reg (.container fields) field.type
  | branch {on : Discriminant} {branches : List (String × Schema)} {default : Option Schema}
      {branch : String × Schema} (h : branch ∈ branches) :
      Uses reg (.switch on branches default) branch.2
  | default (on : Discriminant) (branches : List (String × Schema)) (t : Schema) :
      Uses reg (.switch on branches (some t)) t

variable {reg : Registry}

private theorem WellFormed.acc {s : Schema} (h : WellFormed reg s) :
    Acc (fun t s => Uses reg s t) s := by
  induction h with
  | registered h _ ih =>
    apply Acc.intro
    intro t ht
    cases ht with
    | body hb => cases h.symm.trans hb; exact ih
  | builtIn h =>
    apply Acc.intro
    intro t ht
    cases ht with
    | body hb => cases h.symm.trans hb
  | primitive p => exact Acc.intro _ fun t ht => nomatch ht
  | text _ ih => exact Acc.intro _ fun t ht => by cases ht; exact ih
  | block n => exact Acc.intro _ fun t ht => nomatch ht
  | countedBlock _ ih => exact Acc.intro _ fun t ht => by cases ht; exact ih
  | option _ ih => exact Acc.intro _ fun t ht => by cases ht; exact ih
  | array n _ ih => exact Acc.intro _ fun t ht => by cases ht; exact ih
  | countedArray _ _ iht ihe =>
    apply Acc.intro
    intro t ht
    cases ht with
    | element => exact ihe
    | arrayCount => exact iht
  | container h _ ih =>
    apply Acc.intro
    intro t ht
    cases ht with
    | member hi hf => cases h.symm.trans hi; exact ih _ hf
  | switch _ _ _ ihb ihd =>
    apply Acc.intro
    intro t ht
    cases ht with
    | branch hb => exact ihb _ hb
    | default => exact ihd _ rfl

private theorem depth_le_branchesDepth {branch : String × Schema}
    {branches : List (String × Schema)} (h : branch ∈ branches) :
    branch.2.depth ≤ branchesDepth branches := by
  induction branches with
  | nil => cases h
  | cons head rest ih =>
    simp only [branchesDepth]
    cases h with
    | head => exact Nat.le_max_left _ _
    | tail _ h => exact Nat.le_trans (ih h) (Nat.le_max_right _ _)

theorem Uses.depth_lt {s t : Schema} (h : Uses reg s t) (hs : ∀ name, s ≠ .ref name) :
    t.depth < s.depth := by
  cases h with
  | body _ => exact absurd rfl (hs _)
  | textCount => simp [depth]
  | bufferCount => simp [depth, optionDepth]
  | inner => simp [depth]
  | element =>
    simp only [depth]
    omega
  | arrayCount =>
    simp only [depth, optionDepth]
    omega
  | member h hf =>
    have hm := depth_le_fieldsDepth hf
    have hi := fieldsDepth_inlineFields_le h
    simp only [depth]
    omega
  | branch h =>
    have hb := depth_le_branchesDepth h
    simp only [depth]
    omega
  | default =>
    simp only [depth, optionDepth]
    omega

private theorem not_self_of_acc {α : Type} {r : α → α → Prop} {a : α} (h : Acc r a) : ¬ r a a := by
  induction h with
  | intro a _ ih => exact fun hr => ih a hr hr

theorem WellFormed.not_uses_self {s : Schema} (h : WellFormed reg s) :
    ¬ Relation.TransGen (Uses reg) s s := by
  intro hs
  have hr : Relation.TransGen (fun t s => Uses reg s t) s s := Relation.transGen_swap.2 hs
  exact not_self_of_acc h.acc.transGen hr

end Schema

namespace Compile

open Relation Schema

variable {reg : Registry}

private theorem succeeds_fields {resolving : List String} {fields : List (Field Schema)}
    (h : ∀ field ∈ fields, Succeeds (compileIn reg resolving field.type)) :
    Succeeds (compileFieldsIn reg resolving fields) := by
  induction fields with
  | nil =>
    rw [compileFieldsIn]
    exact succeeds_pure []
  | cons field rest ih =>
    rw [compileFieldsIn]
    apply succeeds_bind (h field List.mem_cons_self)
    intro _
    apply succeeds_bind (ih fun f hf => h f (List.mem_cons_of_mem _ hf))
    intro _
    exact succeeds_pure _

private theorem succeeds_branches {resolving taken : List String}
    {branches : List (String × Schema)}
    (ht : ∀ key ∈ branchKeys branches, key ∉ taken) (hk : (branchKeys branches).Nodup)
    (h : ∀ branch ∈ branches, Succeeds (compileIn reg resolving branch.2)) :
    Succeeds (compileBranchesIn reg resolving taken branches) := by
  induction branches generalizing taken with
  | nil =>
    rw [compileBranchesIn]
    exact succeeds_pure []
  | cons branch rest ih =>
    obtain ⟨declared, t⟩ := branch
    have hkey : BranchKey.normalize declared ∉ taken := ht _ List.mem_cons_self
    have hrest := List.nodup_cons.1 hk
    have hfree : ∀ key ∈ branchKeys rest, key ∉ BranchKey.normalize declared :: taken := by
      intro key hm hc
      rcases List.mem_cons.1 hc with rfl | hc
      · exact hrest.1 hm
      · exact ht key (List.mem_cons_of_mem _ hm) hc
    rw [compileBranchesIn_free _ _ _ _ hkey]
    apply succeeds_bind (h _ List.mem_cons_self)
    intro _
    apply succeeds_bind (ih hfree hrest.2 fun b hb => h b (List.mem_cons_of_mem _ hb))
    intro _
    exact succeeds_pure _

private theorem succeeds_named {resolving : List String} {name : String}
    (h : Succeeds (compileAnewIn reg resolving name)) : Succeeds (compileNamedIn reg resolving name) := by
  rw [compileNamedIn_eq]
  apply succeeds_bind (fun session => ⟨session, rfl⟩)
  intro session
  cases Table.get? session.cache name with
  | some c => exact succeeds_pure c
  | none => exact h

private theorem succeeds_registered {resolving : List String} {name : String} {body : Schema}
    (hb : Table.get? reg name = some body) (hn : name ∉ resolving)
    (h : Succeeds (compileIn reg (name :: resolving) body)) :
    Succeeds (compileNamedIn reg resolving name) := by
  apply succeeds_named
  rw [compileAnewIn_registered hn hb]
  apply succeeds_bind (succeeds_modify _)
  intro _
  apply succeeds_bind (succeeds_within name h)
  intro c
  exact succeeds_bind (succeeds_modify _) fun _ => succeeds_pure c

private theorem succeeds_builtIn {resolving : List String} {name : String} {p : Primitive}
    (hb : Table.get? reg name = none) (hp : Primitive.ofName? name = some p)
    (hn : name ∉ resolving) : Succeeds (compileNamedIn reg resolving name) := by
  apply succeeds_named
  rw [compileAnewIn_builtIn hn hb hp]
  exact succeeds_bind (succeeds_modify _) fun _ => succeeds_pure _

/-- A well-formed schema compiles in every session while only names are in work that it does not
lead to. -/
theorem succeeds_of_wellFormed {s : Schema} (h : WellFormed reg s) :
    ∀ resolving, (∀ name ∈ resolving, ¬ ReflTransGen (Uses reg) s (.ref name)) →
      Succeeds (compileIn reg resolving s) := by
  -- What a part leads to, the whole leads to.
  have part {s t : Schema} {resolving : List String} (hu : Uses reg s t)
      (hr : ∀ name ∈ resolving, ¬ ReflTransGen (Uses reg) s (.ref name)) :
      ∀ name ∈ resolving, ¬ ReflTransGen (Uses reg) t (.ref name) :=
    fun name hn ht => hr name hn (.head hu ht)
  induction h with
  | @registered name body hb hw ih =>
    intro resolving hr
    have hself := (WellFormed.registered hb hw).not_uses_self
    have hbody : ∀ n ∈ name :: resolving, ¬ ReflTransGen (Uses reg) body (.ref n) := by
      intro n hm ht
      rcases List.mem_cons.1 hm with rfl | hm
      · exact hself (TransGen.head' (.body hb) ht)
      · exact hr n hm (.head (.body hb) ht)
    rw [compileIn]
    exact succeeds_registered hb (fun hm => hr name hm .refl) (ih _ hbody)
  | builtIn hb hp =>
    intro resolving hr
    rw [compileIn]
    exact succeeds_builtIn hb hp fun hm => hr _ hm .refl
  | primitive p =>
    intro resolving _
    rw [compileIn]
    exact succeeds_pure _
  | @text t _ ih =>
    intro resolving hr
    rw [compileIn]
    exact succeeds_bind (ih _ (part (.textCount t) hr)) fun _ => succeeds_pure _
  | block n =>
    intro resolving _
    rw [compileIn_block]
    exact succeeds_pure _
  | @countedBlock t _ ih =>
    intro resolving hr
    rw [compileIn_countedBlock]
    exact succeeds_bind (ih _ (part (.bufferCount none t) hr)) fun _ => succeeds_pure _
  | @option t _ ih =>
    intro resolving hr
    rw [compileIn]
    exact succeeds_bind (ih _ (part (.inner t) hr)) fun _ => succeeds_pure _
  | @array e n _ ih =>
    intro resolving hr
    rw [compileIn_array]
    exact succeeds_bind (ih _ (part (.element e _ _) hr)) fun _ => succeeds_pure _
  | @countedArray e t _ _ iht ihe =>
    intro resolving hr
    rw [compileIn_countedArray]
    apply succeeds_bind (iht _ (part (.arrayCount e none t) hr))
    intro _
    exact succeeds_bind (ihe _ (part (.element e none _) hr)) fun _ => succeeds_pure _
  | container hf _ ih =>
    intro resolving hr
    rw [compileIn_container _ _ hf]
    refine succeeds_bind (succeeds_fields fun field hm => ?_) fun _ => succeeds_pure _
    exact ih field hm _ (part (.member hf hm) hr)
  | @switch on branches default hk _ _ ihb ihd =>
    intro resolving hr
    rw [compileIn_switch]
    have hfree : ∀ key ∈ branchKeys branches, key ∉ ([] : List String) :=
      fun _ _ => List.not_mem_nil
    refine succeeds_bind (succeeds_branches hfree hk fun branch hm => ?_) fun _ => ?_
    · exact ihb branch hm _ (part (.branch hm) hr)
    · have hd : Succeeds (compileDefaultIn reg resolving default) := by
        cases default with
        | none => exact succeeds_pure _
        | some t => exact ihd t rfl _ (part (.default on branches t) hr)
      exact succeeds_bind hd fun _ => succeeds_pure _

theorem wellFormed_of_layer {s : Schema} {c : Codec}
    (h : Layer reg (fun t _ => WellFormed reg t) s c) : WellFormed reg s := by
  cases h with
  | registered h hb => exact .registered h hb
  | builtIn h hp => exact .builtIn h hp
  | primitive => exact .primitive _
  | text h => exact .text h
  | block => exact .block _
  | countedBlock h => exact .countedBlock h
  | option h => exact .option h
  | array h => exact .array _ h
  | countedArray ht he => exact .countedArray ht he
  | container h he => exact .container h he.forall_left
  | switch hk he hd =>
    refine .switch hk he.forall_left fun t ht => ?_
    subst ht
    exact hd

/-- Compiling a schema while some names are in work leads directly to compiling another one. -/
inductive Calls (reg : Registry) : List String × Schema → List String × Schema → Prop
  | body {resolving : List String} {name : String} {body : Schema}
      (h : Table.get? reg name = some body) (hn : name ∉ resolving) :
      Calls reg (resolving, .ref name) (name :: resolving, body)
  | part {resolving : List String} {s t : Schema} (hs : ∀ name, s ≠ .ref name)
      (h : Uses reg s t) : Calls reg (resolving, s) (resolving, t)

/-- Compilations nest finitely deep: following a reference leaves fewer registered names that are not
in work, everything else goes down in depth. -/
private theorem wellFounded_calls (reg : Registry) :
    WellFounded fun inner outer => Calls reg outer inner := by
  let measure (call : List String × Schema) : Nat × Nat := (reg.fresh call.1, call.2.depth)
  have hmeasure : WellFounded (InvImage (Prod.Lex (· < ·) (· < ·)) measure) :=
    InvImage.wf measure (Prod.lex Nat.lt_wfRel Nat.lt_wfRel).wf
  apply Subrelation.wf ?_ hmeasure
  intro inner outer h
  cases h with
  | body h hn => exact Prod.Lex.left _ _ (Registry.fresh_cons_lt h hn)
  | part hs h => exact Prod.Lex.right _ (h.depth_lt hs)

end Compile

/-- Compilation in a new session ends, whatever refers to what: no chain of nested compilations goes on
for ever. It has a codec to return exactly for the well-formed schemas, and a schema error exactly for the
others. -/
theorem Registry.compile_ok_iff_wellFormed (reg : Registry) (s : Schema) :
    Acc (fun inner outer => Compile.Calls reg outer inner) ([], s) ∧
      ((∃ c, Compile.outcome (reg.compile s) {} = .ok c) ↔ s.WellFormed reg) ∧
      ((∃ e : SchemaError, Compile.outcome (reg.compile s) {} = .error e) ↔ ¬ s.WellFormed reg) := by
  have hiff : (∃ c, Compile.outcome (reg.compile s) {} = .ok c) ↔ s.WellFormed reg := by
    constructor
    · rintro ⟨c, hc⟩
      have hk := Registry.keeps_compile (R := fun t _ => t.WellFormed reg)
        (fun _ _ h => Compile.wellFormed_of_layer h) s
      exact (hk {} fun _ _ h => nomatch h).2 c hc
    · intro h
      exact Compile.succeeds_of_wellFormed h [] (fun _ hm => nomatch hm) {}
  refine ⟨(Compile.wellFounded_calls reg).apply _, hiff, ?_⟩
  rw [← hiff]
  cases Compile.outcome (reg.compile s) {} with
  | ok c => simp
  | error e => simp

end PacketCodec
