import PacketCodec.Proofs.Codec.Decoded
import PacketCodec.Proofs.Codec.Positions
import PacketCodec.Proofs.Codec.Reread
import PacketCodec.Proofs.Lookup

/-!
# What is read echoes what was written

Wherever names lead both in a value that was written and in what is read from its bytes, the same branch is
selected. There is one exception: a number above the signed range, given to an integer of variable length, is
read as another one. As long as no discriminant finds such a number while its switch has a branch for it, or
for the one that it is read as, every switch is read as the alternative that it was written as, and all bytes
are taken.
-/

namespace PacketCodec

/-- What is found in two places selects the same branch under some keys: it has the same key, or none of them. -/
def SameBranch (keys : List String) (found found' : Option Value) : Prop :=
  ∀ key key', found.bind Value.branchKey? = some key → found'.bind Value.branchKey? = some key' →
    key = key' ∨ key ∉ keys ∧ key' ∉ keys

/-- Where names lead in both of two values, the same branch is selected. -/
def Value.EchoesAt (w v : Value) (keys names : List String) : Prop :=
  SameBranch keys (Scope.descend w names) (Scope.descend v names)

/-- Where segments lead from both of two scopes, the same branch is selected. -/
def Scope.EchoesAt (scope full : Scope) (keys segments : List String) : Prop :=
  SameBranch keys (scope.resolve segments) (full.resolve segments)

/-- There is a branch for a number above the signed range, or for the number that it is read as. -/
def Told (keys : List String) (i : Int) : Prop :=
  toString i ∈ keys ∨ toString (i - UInt32.size) ∈ keys

instance (keys : List String) (i : Int) : Decidable (Told keys i) :=
  inferInstanceAs (Decidable (_ ∨ _))

section Echoes

variable {w v : Value} {before record : Record} {keys names segments : List String} {scope full : Scope}

theorem SameBranch.of_none {found found' : Option Value} (h : found.bind Value.branchKey? = none) :
    SameBranch keys found found' := by
  intro key key' hk
  rw [h] at hk
  cases hk

theorem SameBranch.of_key (h : ∀ key, w.branchKey? = some key → v.branchKey? = some key) :
    SameBranch keys (some w) (some v) :=
  fun key _ hk hk' => .inl (Option.some.inj ((h key hk).symm.trans hk'))

theorem SameBranch.of_not_told {i : Int} (hv : v.asInt? = some i)
    (hw : w.asInt? = some (i - UInt32.size)) (hi : ¬ Told keys i) :
    SameBranch keys (some w) (some v) := by
  intro key key' hk hk'
  obtain rfl : toString (i - UInt32.size) = key :=
    Option.some.inj ((Value.branchKey?_of_asInt? hw).symm.trans hk)
  obtain rfl : toString i = key' := Option.some.inj ((Value.branchKey?_of_asInt? hv).symm.trans hk')
  exact .inr ⟨fun hm => hi (.inr hm), fun hm => hi (.inl hm)⟩

theorem Value.echoesAt_of_leaf (hw : w.asRecord? = none)
    (h : names = [] → SameBranch keys (some w) (some v)) : w.EchoesAt v keys names := by
  cases names with
  | nil => exact h rfl
  | cons name rest =>
    apply SameBranch.of_none
    rw [Scope.descend, hw]
    rfl

theorem Value.echoesAt_empty (v : Value) (keys names : List String) :
    (Value.record []).EchoesAt v keys names := by
  cases names with
  | nil => exact SameBranch.of_none rfl
  | cons name rest => exact SameBranch.of_none rfl

theorem Value.EchoesAt.push {name : String}
    (h : (Value.record before).EchoesAt (.record record) keys names)
    (hw : ∀ rest, names = name :: rest → w.EchoesAt (fieldValue record name) keys rest) :
    (Value.record (Table.push before name w)).EchoesAt (.record record) keys names := by
  cases names with
  | nil => exact SameBranch.of_none rfl
  | cons other rest =>
    rw [Value.EchoesAt, Scope.descend_record, Scope.descend_record] at h ⊢
    rw [Table.push, Table.get?_append]
    cases hbefore : Table.get? before other with
    | some field =>
      rw [hbefore] at h
      exact h
    | none =>
      rw [Option.none_or, Table.get?_cons]
      by_cases hname : name = other
      · subst hname
        have hfield := hw rest rfl
        rw [if_pos rfl]
        cases hrecord : Table.get? record name with
        | none =>
          intro key key' _ hk'
          cases hk'
        | some field =>
          rw [fieldValue, hrecord] at hfield
          exact hfield
      · rw [if_neg hname]
        exact SameBranch.of_none rfl

theorem Scope.EchoesAt.cons
    (hin : ∀ name rest, segments = name :: rest → name ≠ ".." →
      (Value.record before).EchoesAt (.record record) keys segments)
    (hout : ∀ rest, segments = ".." :: rest → scope.EchoesAt full keys rest) :
    Scope.EchoesAt (before :: scope) (record :: full) keys segments := by
  cases segments with
  | nil => exact SameBranch.of_none rfl
  | cons name rest =>
    by_cases hup : name = ".."
    · rw [Scope.EchoesAt, resolve, resolve, if_pos hup, if_pos hup]
      exact hout rest (by rw [hup])
    · rw [Scope.EchoesAt, resolve, resolve, if_neg hup, if_neg hup]
      exact hin name rest rfl hup

theorem Discriminant.sameBranch_of_echoesAt {on : Discriminant}
    (h : ∀ path, on = .field path → scope.EchoesAt full keys (Path.segments path)) {key key' : String}
    (hk : on.key scope = .ok key) (hk' : on.key full = .ok key') :
    key = key' ∨ key ∉ keys ∧ key' ∉ keys := by
  obtain ⟨w, hw, hwk⟩ := key_eq_ok.1 hk
  obtain ⟨v, hv, hvk⟩ := key_eq_ok.1 hk'
  cases on with
  | constant u =>
    cases hw
    cases hv
    exact .inl (Option.some.inj (hwk.symm.trans hvk))
  | field path =>
    have hfound : scope.resolve (Path.segments path) = some w := value_field_eq_ok.1 hw
    have hfound' : full.resolve (Path.segments path) = some v := value_field_eq_ok.1 hv
    apply h path rfl key key'
    · rw [hfound]
      exact hwk
    · rw [hfound']
      exact hvk

end Echoes

theorem Scalar.asRecord?_of_read {s : Scalar} {buf : Bytes} {offset size : Nat} {w : Value}
    (h : s.read buf offset = .ok (w, size)) : w.asRecord? = none := by
  cases s with
  | void =>
    cases h
    rfl
  | _ =>
    obtain ⟨_, _, h⟩ := Except.bind_eq_ok.1 h
    cases h
    rfl

namespace Codec

/-- Names lead from a value to a number that is above the signed range under an integer of variable length, so
that it is read as another one. -/
inductive Misread : Codec → Scope → Value → List String → Int → Prop
  | scalar {p : Primitive} {scope : Scope} {value : Value} {i : Int} (h : p.scalar.Overflows value i) :
      Misread (.scalar p) scope value [] i
  | present {inner : Codec} {scope : Scope} {value : Value} {names : List String} {i : Int}
      (hv : value ≠ .null) (h : Misread inner scope value names i) :
      Misread (.option inner) scope value names i
  | field {fields : List (String × Codec)} {scope : Scope} {record : Record} {field : String × Codec}
      {names : List String} {i : Int} (hf : field ∈ fields)
      (h : Misread field.2 (record :: scope) (fieldValue record field.1) names i) :
      Misread (.container fields) scope (.record record) (field.1 :: names) i
  | alternative {on : Discriminant} {branches : List (String × Codec)} {default : Codec}
      {size : Option Nat} {scope : Scope} {value : Value} {key : String} {names : List String} {i : Int}
      (hk : on.key scope = .ok key) (h : Misread (alternative branches default key) scope value names i) :
      Misread (.switch on branches default size) scope value names i

theorem Misread.of_field {fields : List (String × Codec)} {scope : Scope} {record : Record} {name : String}
    {rest : List String} {i : Int} (h : Misread (.container fields) scope (.record record) (name :: rest) i) :
    ∃ c, (name, c) ∈ fields ∧ c.Misread (record :: scope) (fieldValue record name) rest i := by
  cases h with
  | field hf h => exact ⟨_, hf, h⟩

/-- A codec announces the length of a value by a count. -/
inductive CountedBy : Codec → Value → Codec → Nat → Prop
  | text {count : Codec} {s : String} :
      CountedBy (.text count) (.string s) count (Utf8.encode s).length
  | block {count : Codec} {bs : Bytes} : CountedBy (.countedBlock count) (.bytes bs) count bs.length
  | array {count element : Codec} {items : List Value} :
      CountedBy (.countedArray count element) (.array items) count items.length

/-- While a value is written in a scope, the discriminant of a switch with some keys asks for what segments lead
to from there. -/
inductive Asks : Codec → Scope → Value → List String → List String → Prop
  | here {path : String} {branches : List (String × Codec)} {default : Codec} {size : Option Nat}
      {scope : Scope} {value : Value} :
      Asks (.switch (.field path) branches default size) scope value (Table.names branches)
        (Path.segments path)
  | count {c count : Codec} {scope : Scope} {value : Value} {length : Nat} {keys segments : List String}
      (hc : c.CountedBy value count length)
      (h : Asks count scope (.uint (UInt64.ofNat length)) keys segments) : Asks c scope value keys segments
  | next {c d : Codec} {scope : Scope} {value part : Value} {keys segments : List String}
      (hn : GoesOn c scope value d scope part) (h : Asks d scope part keys segments) :
      Asks c scope value keys segments
  | outward {fields : List (String × Codec)} {scope : Scope} {record : Record}
      {field : String × Codec} {keys segments : List String} (hf : field ∈ fields)
      (h : Asks field.2 (record :: scope) (fieldValue record field.1) keys (".." :: segments)) :
      Asks (.container fields) scope (.record record) keys segments

/-- Somewhere in a value that is written, the discriminant of a switch finds a number that is read as another one,
and the switch has a branch for one of the two. -/
inductive Mistaken : Codec → Scope → Value → Prop
  | here {fields : List (String × Codec)} {scope : Scope} {record : Record} {field : String × Codec}
      {keys : List String} {name : String} {rest : List String} {i : Int} (hf : field ∈ fields)
      (hask : Asks field.2 (record :: scope) (fieldValue record field.1) keys (name :: rest))
      (hname : name ≠ "..")
      (hread : Misread (.container fields) scope (.record record) (name :: rest) i) (hi : Told keys i) :
      Mistaken (.container fields) scope (.record record)
  | next {c d : Codec} {scope scope' : Scope} {value part : Value}
      (hn : GoesOn c scope value d scope' part) (h : Mistaken d scope' part) : Mistaken c scope value

/-- What is read echoes a value that was written under a codec, but for numbers that are read as others. -/
def Echoed (c : Codec) (full : Scope) (value w : Value) : Prop :=
  ∀ keys names, (∀ i, c.Misread full value names i → ¬ Told keys i) → w.EchoesAt value keys names

variable {scope full : Scope} {value : Value} {bs buf : Bytes} {offset : Nat} {d : Decoded}

private theorem scalar_of_decode {p : Primitive} (hw : ((scalar p).emit full value).Writes bs)
    (hb : bs.StandAt buf offset) (h : (scalar p).decode buf scope offset = .ok d) :
    d.size = bs.length ∧ p.scalar.Reread value d.value ∧ d.value.asRecord? = none := by
  obtain ⟨w, hr, hw⟩ := reads_of_writes hw
  have hread := decode_scalar_eq_ok.1 h
  have hsame : (w, bs.length) = (d.value, d.size) := Except.ok.inj ((hr buf offset hb).symm.trans hread)
  obtain ⟨hvalue, hsize⟩ := Prod.mk.inj hsame
  rw [hvalue] at hw
  exact ⟨hsize.symm, hw, Scalar.asRecord?_of_read hread⟩

private theorem option_of_decode {inner : Codec} (hw : ((option inner).emit full value).Writes bs)
    (hb : bs.StandAt buf offset) (h : (option inner).decode buf scope offset = .ok d) :
    (value = .null ∧ bs.length = 1 ∧ d = ⟨.null, 1⟩) ∨
      value ≠ .null ∧ ∃ cs item, (inner.emit full value).Writes cs ∧ cs.StandAt buf (offset + 1) ∧
        inner.decode buf scope (offset + 1) = .ok item ∧ bs.length = cs.length + 1 ∧
        d = ⟨item.value, item.size + 1⟩ := by
  obtain ⟨presence, hp, h⟩ := decode_option_eq_ok.1 h
  by_cases hv : value = .null
  · subst hv
    obtain rfl := writes_absent hw
    cases hb.takeBytes_eq.symm.trans hp
    rcases h with ⟨_, rfl⟩ | ⟨hne, _⟩
    · exact .inl ⟨rfl, rfl, rfl⟩
    · exact absurd rfl hne
  · obtain ⟨cs, hinner, rfl⟩ := writes_present hv hw
    cases hb.left.takeBytes_eq.symm.trans hp
    rcases h with ⟨hnull, _⟩ | ⟨_, item, hi, rfl⟩
    · cases hnull
    · exact .inr ⟨hv, cs, item, hinner, hb.right, hi, rfl, rfl⟩

theorem alternative_of_decode {on : Discriminant} {branches : List (String × Codec)}
    {default : Codec} {size : Option Nat}
    (hs : ∀ path, on = .field path → scope.EchoesAt full (Table.names branches) (Path.segments path))
    (hw : ((switch on branches default size).emit full value).Writes bs)
    (h : (switch on branches default size).decode buf scope offset = .ok d) :
    ∃ key key', on.key scope = .ok key ∧ on.key full = .ok key' ∧
      (key = key' ∨ key ∉ Table.names branches ∧ key' ∉ Table.names branches) ∧
      ((alternative branches default key').emit full value).Writes bs ∧
      (alternative branches default key').decode buf scope offset = .ok d := by
  obtain ⟨key', hfull, hw⟩ := writes_switch hw
  obtain ⟨key, hk, h⟩ := decode_switch_eq_ok.1 h
  have hsame := Discriminant.sameBranch_of_echoesAt hs hk hfull
  refine ⟨key, key', hk, hfull, hsame, hw, ?_⟩
  rcases hsame with rfl | ⟨hnone, hnone'⟩
  · exact h
  · rw [alternative_of_not_mem hnone] at h
    rw [alternative_of_not_mem hnone']
    exact h

private theorem echoesAt_of_asks {on : Discriminant} {branches : List (String × Codec)}
    {default : Codec} {size : Option Nat}
    (hs : ∀ keys segments, Asks (switch on branches default size) full value keys segments →
      scope.EchoesAt full keys segments) {path : String} (hon : on = .field path) :
    scope.EchoesAt full (Table.names branches) (Path.segments path) := by
  subst hon
  exact hs _ _ .here

private theorem count_of_decode {count : Codec} {u : UInt64}
    (hs : ∀ keys segments, count.Asks full (.uint u) keys segments → scope.EchoesAt full keys segments)
    (hw : (count.emit full (.uint u)).Writes bs) (hb : bs.StandAt buf offset)
    (h : count.decode buf scope offset = .ok d) {n : Nat} (hn : d.value.asNat? = some n) :
    d.size = bs.length ∧ n = u.toNat := by
  induction count generalizing bs offset d with
  | scalar p =>
    obtain ⟨hsize, hr, _⟩ := scalar_of_decode hw hb h
    exact ⟨hsize, hr.eq_toNat hn⟩
  | option inner ih =>
    have hv : Value.uint u ≠ .null := Value.noConfusion
    rcases option_of_decode hw hb h with ⟨hnull, _⟩ | ⟨_, cs, item, hw, hb, hi, hlength, rfl⟩
    · exact absurd hnull hv
    · have hinner := fun keys segments hask => hs keys segments (.next (.present hv) hask)
      obtain ⟨hsize, hn⟩ := ih hinner hw hb hi hn
      exact ⟨by rw [hlength, hsize], hn⟩
  | switch on branches default size ihBranches ihDefault =>
    obtain ⟨_, key, _, hkey, _, hw, h⟩ := alternative_of_decode (fun _ => echoesAt_of_asks hs) hw h
    have halt := fun keys segments hask => hs keys segments (.next (.alternative hkey) hask)
    exact alternative_of_forall
      (P := fun c =>
        (∀ keys segments, c.Asks full (.uint u) keys segments → scope.EchoesAt full keys segments) →
        (c.emit full (.uint u)).Writes bs → c.decode buf scope offset = .ok d →
        d.size = bs.length ∧ n = u.toNat)
      (fun branch hm hs hw h => ihBranches branch hm hs hw hb h hn)
      (fun hs hw h => ihDefault hs hw hb h hn) key halt hw h
  | _ => cases hw.1

private theorem length_of_decode {c count : Codec} {length : Nat}
    (hs : ∀ keys segments, c.Asks full value keys segments → scope.EchoesAt full keys segments)
    (hc : c.CountedBy value count length)
    (hw : (Emission.ofExcept (countValue length) fun n => count.emit full n).Writes bs)
    (hb : bs.StandAt buf offset) (h : count.decode buf scope offset = .ok d) {n : Nat}
    (hn : lengthOf d.value = .ok n) : d.size = bs.length ∧ n = length := by
  obtain ⟨hlt, hw⟩ := writes_countValue hw
  obtain ⟨hsize, rfl⟩ := count_of_decode
    (fun keys segments hask => hs keys segments (.count hc hask)) hw hb h (lengthOf_eq_ok.1 hn)
  exact ⟨hsize, UInt64.toNat_ofNat_of_lt' hlt⟩

private theorem size_of_readItems {read : Nat → Except ReadError Decoded} {emit : Value → Emission}
    {items values : List Value} {size : Nat}
    (hitem : ∀ item ∈ items, ∀ {bs offset d}, (emit item).Writes bs → bs.StandAt buf offset →
      read offset = .ok d → d.size = bs.length)
    (hw : (Emission.items emit items).Writes bs) (hb : bs.StandAt buf offset)
    (h : readItems read items.length offset = .ok (values, size)) : size = bs.length := by
  induction items generalizing bs offset values size with
  | nil =>
    cases h
    cases hw.unique Emission.writes_empty
    rfl
  | cons item rest ih =>
    rw [Emission.items] at hw
    obtain ⟨first, others, hfirst, hothers, rfl⟩ := hw.of_append
    obtain ⟨d, values', size', hd, hr, rfl, rfl⟩ := readItems_succ_eq_ok.1 h
    have hsize := hitem item List.mem_cons_self hfirst hb.left hd
    have hbehind := hb.right
    rw [← hsize] at hbehind
    have hrest := ih (fun item hm => hitem item (List.mem_cons_of_mem _ hm)) hothers hbehind hr
    rw [hsize, hrest, List.length_append]

theorem echoes_of_decodeFields {all fields : List (String × Codec)} {record : Record}
    (hall : ∀ field ∈ fields, field ∈ all)
    (ih : ∀ field ∈ fields, ∀ {scope bs offset d},
      (∀ keys segments, field.2.Asks (record :: full) (fieldValue record field.1) keys segments →
        scope.EchoesAt (record :: full) keys segments) →
      ¬ field.2.Mistaken (record :: full) (fieldValue record field.1) →
      (field.2.emit (record :: full) (fieldValue record field.1)).Writes bs →
      bs.StandAt buf offset → field.2.decode buf scope offset = .ok d →
      d.size = bs.length ∧
        field.2.Echoed (record :: full) (fieldValue record field.1) d.value)
    (hs : ∀ keys segments, (container all).Asks full (.record record) keys segments →
      scope.EchoesAt full keys segments)
    (hin : ¬ (container all).Mistaken full (.record record)) {before : Record}
    (hbefore : (container all).Echoed full (.record record) (.record before))
    (hw : (emitFields fields full record).Writes bs) (hb : bs.StandAt buf offset) {done : Record}
    {size : Nat} (h : decodeFields fields buf scope offset before = .ok (done, size)) :
    size = bs.length ∧ (container all).Echoed full (.record record) (.record done) := by
  induction fields generalizing bs offset before size with
  | nil =>
    cases h
    cases hw.unique Emission.writes_empty
    exact ⟨rfl, hbefore⟩
  | cons field rest ihRest =>
    obtain ⟨name, c⟩ := field
    have hmem : (name, c) ∈ all := hall (name, c) List.mem_cons_self
    obtain ⟨first, others, hfirst, hothers, rfl⟩ := writes_emitFields_cons hw
    obtain ⟨item, size', hi, hr, rfl⟩ := decodeFields_cons_eq_ok.1 h
    -- What the field asks for is among the fields before it, or else asked from outside the container.
    have hframe : ∀ keys segments, c.Asks (record :: full) (fieldValue record name) keys segments →
        Scope.EchoesAt (before :: scope) (record :: full) keys segments := by
      intro keys segments hask
      apply Scope.EchoesAt.cons
      · rintro first rest rfl hup
        exact hbefore keys _ fun i hread htold => hin (.here hmem hask hup hread htold)
      · rintro rest rfl
        exact hs keys rest (.outward hmem hask)
    have hinside : ¬ c.Mistaken (record :: full) (fieldValue record name) :=
      fun hmistaken => hin (.next (.field hmem) hmistaken)
    obtain ⟨hsize, hvalue⟩ := ih (name, c) List.mem_cons_self hframe hinside hfirst hb.left hi
    have hpushed : (container all).Echoed full (.record record)
        (.record (Table.push before name item.value)) := by
      intro keys names hnames
      apply (hbefore keys names hnames).push
      rintro rest rfl
      exact hvalue keys rest fun i hread => hnames i (.field hmem hread)
    have hbehind := hb.right
    rw [← hsize] at hbehind
    obtain ⟨hsize', hdone⟩ := ihRest (fun field hm => hall field (List.mem_cons_of_mem _ hm))
      (fun field hm => ih field (List.mem_cons_of_mem _ hm)) hpushed hothers hbehind hr
    exact ⟨by rw [hsize, hsize', List.length_append], hdone⟩

/-- Where a value that was written is read, in a scope that echoes the one it was written in wherever a
discriminant asks, all of its bytes are taken, and what is read echoes the value. -/
theorem echoes_of_decode {c : Codec}
    (hs : ∀ keys segments, c.Asks full value keys segments → scope.EchoesAt full keys segments)
    (hin : ¬ c.Mistaken full value) (hw : (c.emit full value).Writes bs) (hb : bs.StandAt buf offset)
    (h : c.decode buf scope offset = .ok d) :
    d.size = bs.length ∧ c.Echoed full value d.value := by
  -- The size is part of the induction, since each part is read where the one before it ends.
  have leaf {c : Codec} {full : Scope} {w v : Value} (hw : w.asRecord? = none)
      (hk : w.branchKey? = none) : c.Echoed full v w := fun keys names _ =>
    Value.echoesAt_of_leaf hw fun _ => SameBranch.of_none hk
  induction c generalizing scope full value bs offset d with
  | scalar p =>
    obtain ⟨hsize, hr, hleaf⟩ := scalar_of_decode hw hb h
    refine ⟨hsize, fun keys names hnames => Value.echoesAt_of_leaf hleaf ?_⟩
    rintro rfl
    rcases hr.branchKey?_or_overflows with hkey | ⟨i, hlarge, hi⟩
    · exact SameBranch.of_key hkey
    · exact SameBranch.of_not_told (Scalar.Overflows.asInt? hlarge) hi (hnames i (.scalar hlarge))
  | text count _ =>
    obtain ⟨s, counted, rfl, hcount, rfl⟩ := writes_text hw
    obtain ⟨announced, length, taken, s', ha, hl, ht, hs', rfl⟩ := decode_text_eq_ok.1 h
    obtain ⟨hsize, rfl⟩ := length_of_decode hs .text hcount hb.left ha hl
    rw [hsize] at ht
    rw [hb.right.eq_of_takeCounted ht, Utf8.decode_encode] at hs'
    cases hs'
    refine ⟨by rw [hsize, List.length_append], fun keys names _ => ?_⟩
    exact Value.echoesAt_of_leaf rfl fun _ => SameBranch.of_key fun key hk => hk
  | block length =>
    obtain ⟨rfl, rfl⟩ := writes_block hw
    obtain ⟨taken, _, rfl⟩ := decode_block_eq_ok.1 h
    exact ⟨rfl, leaf rfl rfl⟩
  | countedBlock count _ =>
    obtain ⟨content, counted, rfl, hcount, rfl⟩ := writes_countedBlock hw
    obtain ⟨announced, length, taken, ha, hl, _, rfl⟩ := decode_countedBlock_eq_ok.1 h
    obtain ⟨hsize, rfl⟩ := length_of_decode hs .block hcount hb.left ha hl
    exact ⟨by rw [hsize, List.length_append], leaf rfl rfl⟩
  | option inner ih =>
    rcases option_of_decode hw hb h with ⟨_, hlength, rfl⟩ | ⟨hv, cs, item, hw, hb, hi, hlength, rfl⟩
    · exact ⟨hlength.symm, leaf rfl rfl⟩
    · obtain ⟨hsize, hvalue⟩ := ih (fun keys segments hask => hs keys segments (.next (.present hv) hask))
        (fun hmistaken => hin (.next (.present hv) hmistaken)) hw hb hi
      refine ⟨by rw [hlength, hsize], fun keys names hnames => ?_⟩
      exact hvalue keys names fun i hread => hnames i (.present hv hread)
  | array element length ih =>
    obtain ⟨items, rfl, rfl, hitems⟩ := writes_array hw
    obtain ⟨values, size, hr, rfl⟩ := decode_array_eq_ok.1 h
    refine ⟨?_, leaf rfl rfl⟩
    apply size_of_readItems _ hitems hb hr
    intro item hm _ _ _ hw hb h
    exact (ih (fun keys segments hask => hs keys segments (.next (.item hm) hask))
      (fun hmistaken => hin (.next (.item hm) hmistaken)) hw hb h).1
  | countedArray count element _ ih =>
    obtain ⟨items, counted, rest, rfl, hcount, hrest, rfl⟩ := writes_countedArray hw
    obtain ⟨announced, length, values, size, ha, hl, hr, rfl⟩ := decode_countedArray_eq_ok.1 h
    obtain ⟨hsize, rfl⟩ := length_of_decode hs .array hcount hb.left ha hl
    have hbehind := hb.right
    rw [← hsize] at hbehind
    have hitems : size = rest.length := by
      apply size_of_readItems _ hrest hbehind hr
      intro item hm _ _ _ hw hb h
      exact (ih (fun keys segments hask => hs keys segments (.next (.countedItem hm) hask))
        (fun hmistaken => hin (.next (.countedItem hm) hmistaken)) hw hb (decode_of_guarded h)).1
    exact ⟨by rw [hsize, hitems, List.length_append], leaf rfl rfl⟩
  | container fields ih =>
    obtain ⟨record, rfl, hfields⟩ := writes_container hw
    obtain ⟨done, size, hd, rfl⟩ := decode_container_eq_ok.1 h
    exact echoes_of_decodeFields (fun _ hm => hm)
      (fun field hf _ _ _ _ hs hin hw hb h => ih field hf hs hin hw hb h) hs hin
      (fun keys names _ => Value.echoesAt_empty (.record record) keys names) hfields hb hd
  | switch on branches default size ihBranches ihDefault =>
    obtain ⟨_, key, _, hkey, _, hw, h⟩ := alternative_of_decode (fun _ => echoesAt_of_asks hs) hw h
    obtain ⟨hsize, hvalue⟩ := alternative_of_forall
      (P := fun c =>
        (∀ keys segments, c.Asks full value keys segments → scope.EchoesAt full keys segments) →
        ¬ c.Mistaken full value → (c.emit full value).Writes bs → c.decode buf scope offset = .ok d →
        d.size = bs.length ∧ c.Echoed full value d.value)
      (fun branch hm hs hin hw h => ihBranches branch hm hs hin hw hb h)
      (fun hs hin hw h => ihDefault hs hin hw hb h) key
      (fun keys segments hask => hs keys segments (.next (.alternative hkey) hask))
      (fun hmistaken => hin (.next (.alternative hkey) hmistaken)) hw h
    refine ⟨hsize, fun keys names hnames => ?_⟩
    exact hvalue keys names fun i hread => hnames i (.alternative hkey hread)

end Codec

end PacketCodec
