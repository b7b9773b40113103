import Mathlib.Data.List.Perm.Basic
import PacketCodec.Proofs.Codec.Measure
import PacketCodec.Proofs.Compile.Transposition

/-!
# Which branch a switch selects

The branches of a compiled switch have distinct keys, so a key belongs to one branch wherever that stands: the
order of the branches does not matter. A string selects the branch that is declared under it, unless the key
that was declared is a hexadecimal number. Such a key is kept in decimal, and only its decimal spelling selects
the branch; a string that spells a hexadecimal number itself selects none.
-/

namespace PacketCodec

namespace Table

variable {α : Type} {t t' : Table α} {name : String} {a : α}

theorem get?_eq_of_perm (hp : t.Perm t') (hn : t.names.Nodup) (name : String) :
    t.get? name = t'.get? name := by
  induction hp with
  | nil => rfl
  | cons entry _ ih =>
    obtain ⟨key, a⟩ := entry
    have hrest : Table.names _ |>.Nodup := (List.nodup_cons.1 hn).2
    rw [get?_cons, get?_cons, ih hrest]
  | swap entry entry' rest =>
    obtain ⟨key, a⟩ := entry
    obtain ⟨key', a'⟩ := entry'
    have hne : key' ≠ key := by
      intro heq
      subst heq
      simp [names] at hn
    simp only [get?_cons]
    by_cases hkey : key = name
    · subst hkey
      simp [hne]
    · simp [hkey]
  | trans hp _ ih ih' =>
    have hn' : Table.names _ |>.Nodup := (hp.map Prod.fst).nodup_iff.1 hn
    exact (ih hn).trans (ih' hn')

theorem get?_of_mem (hn : t.names.Nodup) (hm : (name, a) ∈ t) : t.get? name = some a := by
  obtain ⟨front, back, rfl⟩ := List.append_of_mem hm
  have hp : (front ++ (name, a) :: back).Perm ((name, a) :: (front ++ back)) := List.perm_middle
  rw [get?_eq_of_perm hp hn, get?_cons, if_pos rfl]

end Table

namespace BranchKey

variable {key text : String} {n : Nat}

/-- The number that a key stands for if it is hexadecimal. -/
def hexadecimal? (key : String) : Option Nat :=
  (hexDigits? key.toList).bind unsignedHex?

theorem normalize_of_none (h : hexadecimal? key = none) : normalize key = key := by
  rw [normalize, ← hexadecimal?, h]

theorem normalize_of_some (h : hexadecimal? key = some n) : normalize key = toString n := by
  rw [normalize, ← hexadecimal?, h]

private theorem hexDigits?_eq_none {digits : List Char} (h : ∀ c ∈ digits, c.isDigit = true) :
    hexDigits? digits = none := by
  unfold hexDigits?
  split
  · exact absurd (h 'x' (by simp)) (by decide)
  · exact absurd (h 'X' (by simp)) (by decide)
  · rfl

theorem hexadecimal?_toString (n : Nat) : hexadecimal? (toString n) = none := by
  have hdigits : (toString n).toList = Nat.toDigits 10 n := String.toList_ofList
  rw [hexadecimal?, hdigits, hexDigits?_eq_none]
  · rfl
  · exact fun c hc => Nat.isDigit_of_mem_toDigits (by decide) (by decide) hc

theorem hexadecimal?_normalize (key : String) : hexadecimal? (normalize key) = none := by
  cases h : hexadecimal? key with
  | none => rw [normalize_of_none h, h]
  | some n => rw [normalize_of_some h, hexadecimal?_toString]

end BranchKey

namespace Codec

/-- In a scope, a codec decodes, encodes and measures as another one does. -/
structure StandsFor (c d : Codec) (scope : Scope) : Prop where
  decode (buf : Bytes) (offset : Nat) : c.decode buf scope offset = d.decode buf scope offset
  encode (value : Value) (dest : Bytes) (offset : Nat) :
    c.encode scope value dest offset = d.encode scope value dest offset
  measure (value : Value) : c.measure scope value = d.measure scope value

section Switch

variable {on : Discriminant} {branches branches' : List (String × Codec)} {default : Codec}
  {scope : Scope} {key : String}

theorem alternative_of_mem {c : Codec} (hn : (Table.names branches).Nodup) (hm : (key, c) ∈ branches) :
    alternative branches default key = c := by
  rw [alternative, Table.get?_of_mem hn hm, Option.getD_some]

/-- A switch stands for the alternative of the key that its discriminant has. -/
theorem standsFor_alternative (hk : on.key scope = .ok key) :
    (ofBranches on branches default).StandsFor (alternative branches default key) scope where
  decode buf offset := by
    rw [ofBranches, decode_switch, hk]
  encode value dest offset := by
    rw [encode, ofBranches, emit_switch, hk]
    rfl
  measure value := by
    rw [ofBranches, measure_switch, hk]
    -- The size that the switch keeps is the one that the alternative measures.
    change ((alternative branches default key).measure scope value).bind (fun n =>
      .ok ((commonSize branches default).getD n)) = _
    cases hm : (alternative branches default key).measure scope value with
    | error e => rfl
    | ok n =>
      cases hsize : commonSize branches default with
      | none => rfl
      | some m =>
        have hn : n = m := measure_eq_fixedSize (fixedSize_alternative hsize key) hm
        rw [hn]
        rfl

theorem commonSize_eq_of_perm (hp : branches.Perm branches') (default : Codec) :
    commonSize branches default = commonSize branches' default := by
  unfold commonSize
  cases default.fixedSize with
  | none => rfl
  | some n => simp only [hp.all_eq]

theorem standsFor_of_perm (hp : branches.Perm branches') (hn : (Table.names branches).Nodup)
    (on : Discriminant) (default : Codec) (scope : Scope) :
    (ofBranches on branches' default).StandsFor (ofBranches on branches default) scope := by
  have hsize := commonSize_eq_of_perm hp default
  have halternative (key : String) :
      alternative branches default key = alternative branches' default key := by
    rw [alternative, Table.get?_eq_of_perm hp hn, ← alternative]
  constructor
  · intro buf offset
    simp only [ofBranches, decode_switch, halternative]
  · intro value dest offset
    simp only [ofBranches, encode, emit_switch, halternative]
  · intro value
    simp only [ofBranches, measure_switch, halternative, hsize]

end Switch

end Codec

section Branches

variable {R : Schema → Codec → Prop} {branches branches' : List (String × Schema)}
  {entries : List (String × Codec)}

theorem BranchesBecome.exists_perm (hp : branches.Perm branches')
    (h : BranchesBecome R branches entries) :
    ∃ entries', entries.Perm entries' ∧ BranchesBecome R branches' entries' := by
  obtain ⟨entries', hbecome, hperm⟩ := List.perm_comp_forall₂ hp.symm h
  exact ⟨entries', hperm.symm, hbecome⟩

theorem BranchesBecome.exists_of_mem (h : BranchesBecome R branches entries) {key : String} {t : Schema}
    (hm : (key, t) ∈ branches) : ∃ c, (BranchKey.normalize key, c) ∈ entries ∧ R t c := by
  induction h with
  | nil => cases hm
  | @cons branch entry _ _ hr _ ih =>
    rcases List.mem_cons.1 hm with rfl | hm
    · refine ⟨entry.2, ?_, hr.2⟩
      rw [hr.1]
      exact List.mem_cons_self
    · obtain ⟨c, hc, hbecomes⟩ := ih hm
      exact ⟨c, List.mem_cons_of_mem _ hc, hbecomes⟩

end Branches

namespace Registry

variable {reg : Registry} {session : Session}

/-- A switch that compiles does so with its branches in any other order, in any session; it then has the same
fixed size, and it decodes, encodes and measures alike in every scope. -/
theorem switch_order_irrelevant (hs : Session.Over reg session) {on : Discriminant}
    {branches branches' : List (String × Schema)} {default : Option Schema} {c : Codec}
    (hc : Compile.outcome (reg.compile (.switch on branches default)) session = .ok c)
    (hp : branches.Perm branches') :
    ∃ c', (∀ session', Session.Over reg session' →
        Compile.outcome (reg.compile (.switch on branches' default)) session' = .ok c') ∧
      c'.fixedSize = c.fixedSize ∧ ∀ scope, c'.StandsFor c scope := by
  cases ((compile_eq_ok_iff hs).1 hc).layer with
  | @switch _ _ _ entries alternative hk he hd =>
    obtain ⟨entries', hperm, he'⟩ := he.exists_perm hp
    have hk' : (branchKeys branches').Nodup := (hp.map _).nodup_iff.1 hk
    have hbecomes : Schema.Becomes reg (.switch on branches' default)
        (.ofBranches on entries' alternative) := .of_layer (.switch hk' he' hd)
    refine ⟨.ofBranches on entries' alternative, fun session' hs' => ?_, ?_, fun scope => ?_⟩
    · exact (compile_eq_ok_iff hs').2 hbecomes
    · exact (Codec.commonSize_eq_of_perm hperm alternative).symm
    · exact Codec.standsFor_of_perm hperm (he.names_eq ▸ hk) on alternative scope

section Gauge

/-- Readings of two bytes, of two units. -/
private def unitBranches : List (String × Schema) :=
  [("0x1", .primitive .u16), ("bar", .primitive .li16)]

private def unitSwitch : Codec :=
  .ofBranches (.field "unit") [("1", .scalar .u16), ("bar", .scalar .li16)] (.scalar .i16)

private theorem unitSwitch_compiles : Compile.outcome (Registry.compile []
    (.switch (.field "unit") unitBranches (some (.primitive .i16)))) {} = .ok unitSwitch := by
  have hscalar (p : Primitive) : (Schema.primitive p).Becomes [] (.scalar p) := .of_layer .primitive
  have hkeys : (branchKeys unitBranches).Nodup := by decide
  have he : BranchesBecome (Schema.Becomes []) unitBranches
      [("1", .scalar .u16), ("bar", .scalar .li16)] :=
    .cons ⟨rfl, hscalar .u16⟩ (.cons ⟨rfl, hscalar .li16⟩ .nil)
  exact (compile_eq_ok_iff .new).2 (.of_layer (.switch hkeys he (hscalar .i16)))

theorem unitSwitch_order_irrelevant :
    Compile.outcome (Registry.compile []
        (.switch (.field "unit") unitBranches (some (.primitive .i16)))) {} = .ok unitSwitch ∧
      unitBranches.Perm unitBranches.reverse ∧
      ∃ c', Compile.outcome (Registry.compile []
          (.switch (.field "unit") unitBranches.reverse (some (.primitive .i16)))) {} = .ok c' ∧
        c'.fixedSize = some 2 ∧
        c'.decode [1, 2] [[("unit", .string "bar")]] 0 = .ok ⟨.int 513, 2⟩ := by
  have hp : unitBranches.Perm unitBranches.reverse := (List.reverse_perm _).symm
  obtain ⟨c', hc', hsize, hstands⟩ := switch_order_irrelevant .new unitSwitch_compiles hp
  refine ⟨unitSwitch_compiles, hp, c', hc' {} .new, hsize, ?_⟩
  rw [(hstands [[("unit", .string "bar")]]).decode]
  rfl

end Gauge

/-- A string selects the branch that is declared under it. Under a hexadecimal number no string but its
decimal spelling does, and a string that is no declared key after that, such as any hexadecimal number, has the
default. -/
theorem string_selects (hs : Session.Over reg session) {on : Discriminant}
    {branches : List (String × Schema)} {default : Option Schema} {c : Codec}
    (hc : Compile.outcome (reg.compile (.switch on branches default)) session = .ok c)
    {scope : Scope} {text : String} (hv : on.value scope = .ok (.string text)) :
    (∀ key t, (key, t) ∈ branches → BranchKey.hexadecimal? key = none → text = key →
      ∃ d, reg.CompilesTo t d ∧ c.StandsFor d scope) ∧
    (∀ key t n, (key, t) ∈ branches → BranchKey.hexadecimal? key = some n → text = toString n →
      ∃ d, reg.CompilesTo t d ∧ c.StandsFor d scope) ∧
    (BranchKey.hexadecimal? text ≠ none ∨ text ∉ branchKeys branches →
      ∃ d, reg.CompilesTo (Schema.defaultType default) d ∧ c.StandsFor d scope) := by
  have compiles {t : Schema} {d : Codec} (h : t.Becomes reg d) : reg.CompilesTo t d :=
    (compile_eq_ok_iff .new).2 h
  have hkey : on.key scope = .ok text := by
    rw [Discriminant.key, hv]
    rfl
  cases ((compile_eq_ok_iff hs).1 hc).layer with
  | @switch _ _ _ entries alternative hk he hd =>
    have hstands : (Codec.ofBranches on entries alternative).StandsFor
        (Codec.alternative entries alternative text) scope := Codec.standsFor_alternative hkey
    have hnames : (Table.names entries).Nodup := he.names_eq ▸ hk
    have branch {key : String} {t : Schema} (hm : (key, t) ∈ branches)
        (htext : BranchKey.normalize key = text) : ∃ d, reg.CompilesTo t d ∧
          (Codec.ofBranches on entries alternative).StandsFor d scope := by
      obtain ⟨d, hd, hbecomes⟩ := he.exists_of_mem hm
      rw [htext] at hd
      rw [Codec.alternative_of_mem hnames hd] at hstands
      exact ⟨d, compiles hbecomes, hstands⟩
    refine ⟨fun key t hm hnone htext => ?_, fun key t n hm hsome htext => ?_, fun hother => ?_⟩
    · exact branch hm ((BranchKey.normalize_of_none hnone).trans htext.symm)
    · exact branch hm ((BranchKey.normalize_of_some hsome).trans htext.symm)
    · have hm : text ∉ branchKeys branches := by
        rcases hother with hsome | hm
        · intro hm
          obtain ⟨declared, _, rfl⟩ := List.mem_map.1 hm
          exact hsome (BranchKey.hexadecimal?_normalize declared.1)
        · exact hm
      rw [Codec.alternative_of_not_mem (he.names_eq ▸ hm)] at hstands
      exact ⟨alternative, compiles (Schema.becomes_defaultType hd), hstands⟩

theorem unitSwitch_string_selects :
    Compile.outcome (Registry.compile []
        (.switch (.field "unit") unitBranches (some (.primitive .i16)))) {} = .ok unitSwitch ∧
      (∃ d, Registry.CompilesTo [] (.primitive .li16) d ∧
        unitSwitch.StandsFor d [[("unit", .string "bar")]]) ∧
      (∃ d, Registry.CompilesTo [] (.primitive .u16) d ∧
        unitSwitch.StandsFor d [[("unit", .string "1")]]) ∧
      ∃ d, Registry.CompilesTo [] (.primitive .i16) d ∧
        unitSwitch.StandsFor d [[("unit", .string "0x1")]] := by
  have hvalue (text : String) : (Discriminant.field "unit").value [[("unit", .string text)]] =
      .ok (.string text) := rfl
  refine ⟨unitSwitch_compiles, ?_, ?_, ?_⟩
  · exact (string_selects .new unitSwitch_compiles (hvalue "bar")).1 "bar" _
      (by simp [unitBranches]) rfl rfl
  · exact (string_selects .new unitSwitch_compiles (hvalue "1")).2.1 "0x1" _ 1
      (by simp [unitBranches]) rfl rfl
  · exact (string_selects .new unitSwitch_compiles (hvalue "0x1")).2.2 (.inl (by decide))

section Kind

private def hexSwitch : Codec :=
  .ofBranches (.field "kind") [("16", .scalar .u8)] (.scalar .void)

/-- A string spelled as a declared hexadecimal key does not select its branch, and one spelled as no declared
key does. -/
theorem hexadecimal_key_not_selected :
    (Codec.scalar .u8).decode [7] [[("kind", .string "0x10")]] 0 = .ok ⟨.uint 7, 1⟩ ∧
      hexSwitch.decode [7] [[("kind", .string "0x10")]] 0 = .ok ⟨.null, 0⟩ ∧
      hexSwitch.decode [7] [[("kind", .string "16")]] 0 = .ok ⟨.uint 7, 1⟩ ∧
      ¬ ∀ (reg : Registry) (on : Discriminant) (branches : List (String × Schema))
        (default : Option Schema) (c : Codec), reg.CompilesTo (.switch on branches default) c →
        ∀ (scope : Scope) (text : String), on.value scope = .ok (.string text) →
          (∀ key t, (key, t) ∈ branches → text = key →
            ∃ d, reg.CompilesTo t d ∧ c.StandsFor d scope) ∧
          ((∀ key t, (key, t) ∈ branches → text ≠ key) →
            ∃ d, reg.CompilesTo (Schema.defaultType default) d ∧ c.StandsFor d scope) := by
  have hu8 : (Schema.primitive .u8).Becomes [] (.scalar .u8) := .of_layer .primitive
  have hkeys : (branchKeys [("0x10", .primitive .u8)]).Nodup := by decide
  have hswitch : Registry.CompilesTo []
      (.switch (.field "kind") [("0x10", .primitive .u8)] none) hexSwitch :=
    (compile_eq_ok_iff .new).2 (.of_layer (.switch hkeys (.cons ⟨rfl, hu8⟩ .nil) rfl))
  refine ⟨rfl, rfl, rfl, fun h => ?_⟩
  obtain ⟨d, hd, hstands⟩ := (h [] (.field "kind") _ none _ hswitch [[("kind", .string "0x10")]] "0x10"
    rfl).1 "0x10" (.primitive .u8) List.mem_cons_self rfl
  have heq : d = .scalar .u8 := ((compile_eq_ok_iff .new).1 hd).unique hu8
  have hdecode := hstands.decode [7] 0
  rw [heq] at hdecode
  cases hdecode

end Kind

end Registry

end PacketCodec
