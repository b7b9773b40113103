import PacketCodec.Proofs.Compile.Acceptance
import PacketCodec.Proofs.Compile.Compiled

/-!
# What a schema becomes

Over a registry a schema becomes at most one codec, the one that finitely many steps of compilation
derive. Every session over the registry compiles it to that codec, whatever it has compiled before and
whatever has failed in it.
-/

namespace PacketCodec

variable {reg : Registry} {R R' : Schema → Codec → Prop} {s : Schema} {c d : Codec}

section Imp

variable {fields : List (Field Schema)} {branches : List (String × Schema)}
  {entries : List (String × Codec)}

theorem MembersBecome.imp (hR : ∀ t e, R t e → R' t e) (h : MembersBecome R fields entries) :
    MembersBecome R' fields entries :=
  List.Forall₂.imp (fun _ _ hr => ⟨hr.1, hR _ _ hr.2⟩) h

theorem BranchesBecome.imp (hR : ∀ t e, R t e → R' t e) (h : BranchesBecome R branches entries) :
    BranchesBecome R' branches entries :=
  List.Forall₂.imp (fun _ _ hr => ⟨hr.1, hR _ _ hr.2⟩) h

theorem DefaultBecomes.imp (hR : ∀ t e, R t e → R' t e) {default : Option Schema}
    (h : DefaultBecomes R default c) : DefaultBecomes R' default c := by
  cases default with
  | none => exact h
  | some t => exact hR t c h

theorem Layer.imp (hR : ∀ t e, R t e → R' t e) (h : Layer reg R s c) : Layer reg R' s c := by
  cases h with
  | registered h hb => exact .registered h (hR _ _ hb)
  | builtIn h hp => exact .builtIn h hp
  | primitive => exact .primitive
  | text h => exact .text (hR _ _ h)
  | block => exact .block
  | countedBlock h => exact .countedBlock (hR _ _ h)
  | option h => exact .option (hR _ _ h)
  | array h => exact .array (hR _ _ h)
  | countedArray ht he => exact .countedArray (hR _ _ ht) (hR _ _ he)
  | container h he => exact .container h (he.imp hR)
  | switch hk he hd => exact .switch hk (he.imp hR) (hd.imp hR)

end Imp

namespace Schema

/-- A schema becomes a codec by finitely many steps: every relation that the steps pass on holds
between them. -/
def Becomes (reg : Registry) (s : Schema) (c : Codec) : Prop :=
  ∀ R : Schema → Codec → Prop, (∀ t e, Layer reg R t e → R t e) → R s c

namespace Becomes

theorem of_layer (h : Layer reg (Becomes reg) s c) : Becomes reg s c :=
  fun R hR => hR s c (h.imp fun _ _ hb => hb R hR)

theorem layer (h : Becomes reg s c) : Layer reg (Becomes reg) s c :=
  h (Layer reg (Becomes reg)) fun _ _ hl => hl.imp fun _ _ hb => of_layer hb

theorem wellFormed (h : Becomes reg s c) : WellFormed reg s :=
  h (fun t _ => WellFormed reg t) fun _ _ hl => Compile.wellFormed_of_layer hl

end Becomes

/-- Nothing but one codec is what a schema becomes. -/
private def BecomesOnly (reg : Registry) (s : Schema) (c : Codec) : Prop :=
  ∀ d, Becomes reg s d → c = d

private theorem eq_of_entries {α : Type} {name : α → String} {type : α → Schema} {parts : List α}
    {entries entries' : List (String × Codec)}
    (h : List.Forall₂ (fun a entry => name a = entry.1 ∧ BecomesOnly reg (type a) entry.2) parts
      entries)
    (h' : List.Forall₂ (fun a entry => name a = entry.1 ∧ Becomes reg (type a) entry.2) parts
      entries') : entries = entries' := by
  induction h generalizing entries' with
  | nil =>
    cases h'
    rfl
  | cons hr _ ih =>
    cases h' with
    | cons hr' htail =>
      rw [ih htail]
      exact congrArg (· :: _) (Prod.ext (hr.1.symm.trans hr'.1) (hr.2 _ hr'.2))

private theorem eq_of_defaultBecomes {default : Option Schema}
    (h : DefaultBecomes (BecomesOnly reg) default c) (h' : DefaultBecomes (Becomes reg) default d) :
    c = d := by
  cases default with
  | none => exact Eq.trans h (Eq.symm h')
  | some t => exact h d h'

private theorem becomesOnly_of_layer (h : Layer reg (BecomesOnly reg) s c) :
    BecomesOnly reg s c := by
  intro d hbecomes
  have hlayer := hbecomes.layer
  cases h with
  | registered h hb =>
    cases hlayer with
    | registered h' hb' =>
      cases h.symm.trans h'
      exact hb d hb'
    | builtIn h' => cases h.symm.trans h'
  | builtIn h hp =>
    cases hlayer with
    | registered h' => cases h.symm.trans h'
    | builtIn _ hp' =>
      cases hp.symm.trans hp'
      rfl
  | primitive =>
    cases hlayer
    rfl
  | text h =>
    cases hlayer with
    | text h' => rw [h _ h']
  | block =>
    cases hlayer
    rfl
  | countedBlock h =>
    cases hlayer with
    | countedBlock h' => rw [h _ h']
  | option h =>
    cases hlayer with
    | option h' => rw [h _ h']
  | array h =>
    cases hlayer with
    | array h' => rw [h _ h']
  | countedArray ht he =>
    cases hlayer with
    | countedArray ht' he' => rw [ht _ ht', he _ he']
  | container h he =>
    cases hlayer with
    | container h' he' =>
      cases h.symm.trans h'
      rw [eq_of_entries he he']
  | switch _ he hd =>
    cases hlayer with
    | switch _ he' hd' => rw [eq_of_entries he he', eq_of_defaultBecomes hd hd']

theorem Becomes.unique (hc : Becomes reg s c) (hd : Becomes reg s d) : c = d :=
  hc (BecomesOnly reg) (fun _ _ hl => becomesOnly_of_layer hl) d hd

end Schema

/-- What a schema compiles to does not depend on the session. -/
theorem Registry.compile_eq_ok_iff {session : Session} (hs : Session.Over reg session) :
    Compile.outcome (reg.compile s) session = .ok c ↔ s.Becomes reg c := by
  have sound {d : Codec} (hd : Compile.outcome (reg.compile s) session = .ok d) :
      s.Becomes reg d :=
    Registry.related_of_compile (fun _ _ hl => Schema.Becomes.of_layer hl) hs hd
  refine ⟨sound, fun h => ?_⟩
  obtain ⟨d, hd⟩ := Compile.succeeds_of_wellFormed h.wellFormed [] (fun _ hm => nomatch hm) session
  rw [h.unique (sound hd)]
  exact hd

end PacketCodec
