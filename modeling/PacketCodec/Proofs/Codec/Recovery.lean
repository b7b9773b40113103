import PacketCodec.Proofs.Codec.Positions
import PacketCodec.Proofs.Codec.Reread
import PacketCodec.Proofs.Codec.RoundTrip
import PacketCodec.Proofs.Scope

/-!
# Recovering what was written

Whatever a caller gives to be written is read back, equal as a value, from the bytes that it is written
as and whatever follows them. The caller's integers may have either signedness, so the value that is read
need not be the same; but its fields are equal one by one, and where a switch asks for one of them in the
caller's record it finds an equal one in the record that has been read so far.
-/

namespace PacketCodec

/-- Wherever bytes stand, up to the largest offset, a value equal to the given one is read from all of
them. -/
def Recovers (read : Bytes → Nat → Except ReadError Decoded) (bs : Bytes) (value : Value) : Prop :=
  ∃ w, (w == value) = true ∧ ∀ buf offset, bs.StandAt buf offset →
    offset + bs.length ≤ Bytes.maxOffset → read buf offset = .ok ⟨w, bs.length⟩

/-- Two scopes agree on names: each leads to equal values in both, or to none in either. -/
def Scope.AgreeOn (names : List String) (scope full : Scope) : Prop :=
  ∀ path ∈ names, '/' ∉ path.toList →
    Option.Rel (fun w v => (w == v) = true) (scope.lookup path) (full.lookup path)

namespace Record.Equals

variable {before done : Record}

theorem get? (h : Equals before done) (name : String) :
    Option.Rel (fun w v => (w == v) = true) (Table.get? before name) (Table.get? done name) := by
  induction h with
  | nil => exact .none
  | @cons f f' _ _ hf _ ih =>
    obtain ⟨key, w⟩ := f
    obtain ⟨key', v⟩ := f'
    obtain ⟨rfl, hvalue⟩ := hf
    rw [Table.get?_cons, Table.get?_cons]
    split
    · exact .some hvalue
    · exact ih

theorem agreeOn (h : Equals before done) (todo : Record) (scope full : Scope) :
    Scope.AgreeOn (Table.names before) (before :: scope) ((done ++ todo) :: full) := by
  intro path hpath hslash
  rw [Scope.lookup_of_not_mem hslash, Scope.lookup_of_not_mem hslash]
  split
  · have hget := h.get? path
    rw [Table.get?_append]
    cases hb : Table.get? before path with
    | none => exact absurd hpath ((Table.get?_eq_none_iff before path).1 hb)
    | some w =>
      rw [hb] at hget
      cases hd : Table.get? done path with
      | none =>
        rw [hd] at hget
        cases hget
      | some v =>
        rw [hd] at hget
        exact hget
  · exact .none

end Record.Equals

namespace Discriminant

/-- A discriminant is a constant or the name of one of some fields. -/
def NamedIn (names : List String) : Discriminant → Prop
  | .constant _ => True
  | .field path => '/' ∉ path.toList ∧ path ∈ names

theorem NamedIn.key_eq {on : Discriminant} {names : List String} (h : on.NamedIn names)
    {scope full : Scope} (hs : Scope.AgreeOn names scope full) {key : String}
    (hk : on.key full = .ok key) : on.key scope = .ok key := by
  obtain ⟨v, hv, hkey⟩ := key_eq_ok.1 hk
  cases on with
  | constant u => exact hk
  | field path =>
    have hlookup := hs path h.2 h.1
    rw [value_field_eq_ok.1 hv] at hlookup
    cases hw : scope.lookup path with
    | none =>
      rw [hw] at hlookup
      cases hlookup
    | some w =>
      rw [hw] at hlookup
      cases hlookup with
      | some hvalue =>
        exact key_eq_ok.2 ⟨w, value_field_eq_ok.2 hw, (Value.branchKey?_of_beq hvalue).trans hkey⟩

end Discriminant

/-- Integers of fixed or variable length. -/
def Scalar.IsInteger : Scalar → Prop
  | .unsigned _ _ => True
  | .signed _ _ => True
  | .varint => True
  | _ => False

theorem Scalar.IsInteger.not_isFloat {s : Scalar} (h : s.IsInteger) : ¬ s.IsFloat := by
  cases s with
  | single order => exact h.elim
  | double order => exact h.elim
  | _ => exact not_false

theorem Scalar.IsInteger.ne_void {s : Scalar} (h : s.IsInteger) : s ≠ .void := by
  rintro rfl
  exact h

namespace Codec

def IsInteger : Codec → Prop
  | .scalar p => p.scalar.IsInteger
  | _ => False

/-- A length is announced by an integer. -/
def CountsByInteger : Codec → Prop
  | .text count => count.IsInteger
  | .countedBlock count => count.IsInteger
  | .countedArray count _ => count.IsInteger
  | _ => True

/-- A switch among fields asks for a constant or for one of the given names. What is inside a container
asks for its fields instead. -/
def SelectsAmong (names : List String) : Codec → Prop
  | .switch on _ _ _ => on.NamedIn names
  | .container _ => False
  | _ => True

/-- Every switch asks for a constant or for a field that stands earlier in the container that encloses it,
where `names` are those of the earlier fields. -/
inductive SelectsEarlier : List String → Codec → Prop
  | container {names : List String} {fields : List (String × Codec)}
      (h : ∀ front name c back, fields = front ++ (name, c) :: back →
        SelectsEarlier (Table.names front) c) : SelectsEarlier names (.container fields)
  | other {names : List String} {c : Codec} (self : c.SelectsAmong names)
      (inside : ∀ d ∈ c.parts, SelectsEarlier names d) : SelectsEarlier names c

theorem SelectsEarlier.part {names : List String} {c d : Codec} (h : SelectsEarlier names c)
    (hc : ∀ fields, c ≠ .container fields) (hd : d ∈ c.parts) : SelectsEarlier names d := by
  cases h with
  | container => exact absurd rfl (hc _)
  | other _ inside => exact inside d hd

theorem SelectsEarlier.field {names : List String} {front back : List (String × Codec)}
    {name : String} {c : Codec}
    (h : SelectsEarlier names (.container (front ++ (name, c) :: back))) :
    SelectsEarlier (Table.names front) c := by
  cases h with
  | container h => exact h front name c back rfl
  | other self _ => exact self.elim

/-- A length that an integer of variable length announces fits 32 bits as a signed number. -/
def Announces (count : Codec) (length : Nat) : Prop :=
  count = .scalar .varint → length < 0x80000000

/-- A value has the shape that is read under a codec, as far as one level of both tells: nothing where
nothing is written, numbers and lengths of variable length in the signed range, records with just the
fields of their container. -/
def Plain : Codec → Value → Prop
  | .scalar p, value => p.scalar.InRange value ∧ (p.scalar = .void → value = .null)
  | .text count, .string s => count.Announces (Utf8.encode s).length
  | .countedBlock count, .bytes bs => count.Announces bs.length
  | .countedArray count _, .array items => count.Announces items.length
  | .container fields, .record record => Table.names record = Table.names fields
  | _, _ => True

/-- What recovering written values asks of each part of a codec. -/
def Recoverable (c : Codec) : Prop :=
  c.Recodable ∧ c.CountsByInteger

section Recovers

variable {full : Scope} {bs : Bytes}

private theorem length_recovered {count : Codec} (hc : count.IsInteger) {length : Nat}
    (hr : count.Announces length)
    (hw : (Emission.ofExcept (countValue length) fun n => count.emit full n).Writes bs) :
    ∃ w, lengthOf w = .ok length ∧ ∀ buf scope offset, bs.StandAt buf offset →
      count.decode buf scope offset = .ok ⟨w, bs.length⟩ := by
  obtain ⟨p, rfl, hp⟩ : ∃ p, count = .scalar p ∧ p.scalar.IsInteger := by
    cases count with
    | scalar p => exact ⟨p, rfl, hc⟩
    | _ => exact hc.elim
  obtain ⟨hlt, hw⟩ := writes_countValue hw
  obtain ⟨w, hread, hw⟩ := reads_of_writes hw
  have hu : (UInt64.ofNat length).toNat = length := UInt64.toNat_ofNat_of_lt' hlt
  have hrange : p.scalar.InRange (.uint (UInt64.ofNat length)) := by
    cases p with
    | varint =>
      intro i hi
      have hsmall := hr rfl
      rw [Value.asInt?, hu] at hi
      split at hi
      · cases hi
        omega
      · cases hi
    | _ => trivial
  have hbeq : (w == .uint (UInt64.ofNat length)) = true :=
    hw.beq hp.not_isFloat hrange fun hvoid => absurd hvoid hp.ne_void
  have hnat : w.asNat? = some length := by
    rw [Value.asNat?_of_beq_uint hbeq, hu]
  refine ⟨w, lengthOf_eq_ok.2 hnat, fun buf scope offset hb => ?_⟩
  exact decode_scalar_eq_ok.2 (hread buf offset hb)

private theorem content_recovered {count : Codec} (hc : count.IsInteger) {content counted : Bytes}
    (hr : count.Announces content.length)
    (hw : (Emission.ofExcept (countValue content.length) fun n => count.emit full n).Writes counted) :
    ∃ w, lengthOf w = .ok content.length ∧
      ∀ buf scope offset, Bytes.StandAt (counted ++ content) buf offset →
        offset + (counted ++ content).length ≤ Bytes.maxOffset →
        count.decode buf scope offset = .ok ⟨w, counted.length⟩ ∧
          takeCounted buf (offset + counted.length) content.length = .ok content := by
  obtain ⟨w, hw, hread⟩ := length_recovered hc hr hw
  refine ⟨w, hw, fun buf scope offset hb hmax => ?_⟩
  rw [List.length_append] at hmax
  exact ⟨hread buf scope offset hb.left, hb.right.takeCounted_eq (by omega)⟩

private theorem option_recovered {inner : Codec} {scope : Scope} {value : Value}
    (hinner : value ≠ .null → ∀ cs, (inner.emit full value).Writes cs →
      Recovers (fun buf offset => inner.decode buf scope offset) cs value)
    (hw : ((option inner).emit full value).Writes bs) :
    Recovers (fun buf offset => (option inner).decode buf scope offset) bs value := by
  by_cases hv : value = .null
  · subst hv
    obtain rfl := writes_absent hw
    refine ⟨.null, rfl, fun buf offset hb _ => ?_⟩
    exact decode_option_eq_ok.2 ⟨[0], hb.takeBytes_eq, .inl ⟨rfl, rfl⟩⟩
  · obtain ⟨cs, hcs, rfl⟩ := writes_present hv hw
    obtain ⟨w, hw, hread⟩ := hinner hv cs hcs
    refine ⟨w, hw, fun buf offset hb hmax => ?_⟩
    have hpresence : takeBytes buf offset 1 = .ok [1] := hb.left.takeBytes_eq
    rw [List.singleton_append, List.length_cons] at hmax ⊢
    have hbehind := hread buf (offset + 1) hb.right (by omega)
    exact decode_option_eq_ok.2 ⟨[1], hpresence, .inr ⟨by decide, _, hbehind, rfl⟩⟩

private theorem items_recovered {read : Bytes → Nat → Except ReadError Decoded}
    {emit : Value → Emission} {items : List Value}
    (hitem : ∀ item ∈ items, ∀ {bs}, (emit item).Writes bs → Recovers read bs item)
    (hw : (Emission.items emit items).Writes bs) :
    ∃ values, (Value.array values == .array items) = true ∧
      ∀ buf offset, bs.StandAt buf offset → offset + bs.length ≤ Bytes.maxOffset →
        readItems (read buf) items.length offset = .ok (values, bs.length) := by
  induction items generalizing bs with
  | nil =>
    cases hw.unique Emission.writes_empty
    exact ⟨[], rfl, fun _ _ _ _ => rfl⟩
  | cons item rest ih =>
    rw [Emission.items] at hw
    obtain ⟨first, others, hfirst, hothers, rfl⟩ := hw.of_append
    obtain ⟨w, hw, hread⟩ := hitem item List.mem_cons_self hfirst
    obtain ⟨values, hvalues, hreads⟩ :=
      ih (fun item hm => hitem item (List.mem_cons_of_mem _ hm)) hothers
    refine ⟨w :: values, Value.beq_array_iff.2 (.cons hw (Value.beq_array_iff.1 hvalues)), ?_⟩
    intro buf offset hb hmax
    rw [List.length_append] at hmax ⊢
    have hone := hread buf offset hb.left (by omega)
    have hrest := hreads buf (offset + first.length) hb.right (by omega)
    exact readItems_succ_eq_ok.2 ⟨_, _, _, hone, hrest, rfl, rfl⟩

private theorem fieldValue_of_nodup {done todo : Record} {name : String} {v : Value}
    (h : (Table.names (done ++ (name, v) :: todo)).Nodup) :
    fieldValue (done ++ (name, v) :: todo) name = v := by
  have hfresh : name ∉ Table.names done := by
    rw [Table.names, List.map_append, List.nodup_append] at h
    exact fun hm => h.2.2 name hm name List.mem_cons_self rfl
  exact fieldValue_of_push hfresh ⟨todo, by simp [Table.push]⟩

private theorem fields_recovered (scope : Scope) {fields : List (String × Codec)} {record : Record}
    (ih : ∀ field ∈ fields, ∀ {names scope bs}, field.2.SelectsEarlier names →
      Scope.AgreeOn names scope (record :: full) →
      (field.2.emit (record :: full) (fieldValue record field.1)).Writes bs →
      Recovers (fun buf offset => field.2.decode buf scope offset) bs
        (fieldValue record field.1))
    {before done todo : Record} (hbefore : Record.Equals before done)
    (hrecord : record = done ++ todo) (hnodup : (Table.names record).Nodup)
    (hnames : Table.names todo = Table.names fields)
    (hsel : ∀ front name c back, fields = front ++ (name, c) :: back →
      SelectsEarlier (Table.names before ++ Table.names front) c)
    (hw : (emitFields fields full record).Writes bs) :
    ∃ more, Record.Equals more todo ∧
      ∀ buf offset, bs.StandAt buf offset → offset + bs.length ≤ Bytes.maxOffset →
        decodeFields fields buf scope offset before = .ok (before ++ more, bs.length) := by
  -- The fields in front have been read as `before`; in the caller's record they stand as `done`.
  induction fields generalizing before done todo bs with
  | nil =>
    cases hw.unique Emission.writes_empty
    obtain rfl : todo = [] := List.map_eq_nil_iff.1 hnames
    exact ⟨[], .nil, fun _ _ _ _ => by rw [decodeFields, List.append_nil]; rfl⟩
  | cons field rest ihRest =>
    obtain ⟨name, c⟩ := field
    cases todo with
    | nil => cases hnames
    | cons entry todo =>
      obtain ⟨name', v⟩ := entry
      obtain ⟨rfl, htodo⟩ : name' = name ∧ Table.names todo = Table.names rest := by
        simpa [Table.names] using hnames
      have hvalue : fieldValue record name' = v := by
        rw [hrecord] at hnodup ⊢
        exact fieldValue_of_nodup hnodup
      obtain ⟨first, others, hfirst, hothers, rfl⟩ := writes_emitFields_cons hw
      have hagree := hbefore.agreeOn ((name', v) :: todo) scope full
      rw [← hrecord] at hagree
      have hselc : SelectsEarlier (Table.names before) c := by
        simpa [Table.names] using hsel [] name' c rest rfl
      obtain ⟨w, hw, hread⟩ := ih (name', c) List.mem_cons_self hselc hagree hfirst
      rw [hvalue] at hw
      have hpushed : Record.Equals (Table.push before name' w) (done ++ [(name', v)]) :=
        List.rel_append hbefore (.cons ⟨rfl, hw⟩ .nil)
      obtain ⟨more, hmore, hreads⟩ := ihRest
        (fun field hm => ih field (List.mem_cons_of_mem _ hm)) hpushed (by simpa using hrecord)
        htodo (fun front name d back hrest => by
          simpa [Table.names, Table.push] using hsel ((name', c) :: front) name d back (by
            rw [hrest, List.cons_append])) hothers
      refine ⟨(name', w) :: more, .cons ⟨rfl, hw⟩ hmore, fun buf offset hb hmax => ?_⟩
      rw [List.length_append] at hmax ⊢
      have hone := hread buf offset hb.left (by omega)
      have hrest := hreads buf (offset + first.length) hb.right (by omega)
      rw [Table.push, List.append_assoc] at hrest
      exact decodeFields_cons_eq_ok.2 ⟨_, _, hone, hrest, rfl⟩

/-- What a value is written as is read as a value that is equal to it. -/
theorem recovers_of_emit {scope : Scope} {c : Codec} (hc : c.Everywhere Recoverable) {names : List String}
    (hsel : c.SelectsEarlier names) (hs : Scope.AgreeOn names scope full) {value : Value}
    (hp : c.Throughout Plain full value) (hw : (c.emit full value).Writes bs) :
    Recovers (fun buf offset => c.decode buf scope offset) bs value := by
  induction c generalizing names scope full value bs with
  | scalar p =>
    obtain ⟨w, hread, hw⟩ := reads_of_writes hw
    refine ⟨w, hw.beq hc.self.1.2 hp.self.1 hp.self.2, fun buf offset hb _ => ?_⟩
    exact decode_scalar_eq_ok.2 (hread buf offset hb)
  | text count _ =>
    obtain ⟨s, counted, rfl, hcount, rfl⟩ := writes_text hw
    obtain ⟨w, hl, hread⟩ := content_recovered hc.self.2 hp.self hcount
    refine ⟨.string s, beq_self_eq_true s, fun buf offset hb hmax => ?_⟩
    obtain ⟨hannounced, ht⟩ := hread buf scope offset hb hmax
    rw [List.length_append]
    exact decode_text_eq_ok.2 ⟨_, _, _, _, hannounced, hl, ht, Utf8.decode_encode s, rfl⟩
  | block length =>
    obtain ⟨rfl, rfl⟩ := writes_block hw
    refine ⟨.bytes bs, beq_self_eq_true bs, fun buf offset hb hmax => ?_⟩
    exact decode_block_eq_ok.2 ⟨_, hb.takeCounted_eq hmax, rfl⟩
  | countedBlock count _ =>
    obtain ⟨content, counted, rfl, hcount, rfl⟩ := writes_countedBlock hw
    obtain ⟨w, hl, hread⟩ := content_recovered hc.self.2 hp.self hcount
    refine ⟨.bytes content, beq_self_eq_true content, fun buf offset hb hmax => ?_⟩
    obtain ⟨hannounced, ht⟩ := hread buf scope offset hb hmax
    rw [List.length_append]
    exact decode_countedBlock_eq_ok.2 ⟨_, _, _, hannounced, hl, ht, rfl⟩
  | option inner ih =>
    refine option_recovered (fun hv cs hcs => ?_) hw
    exact ih (hc.part List.mem_cons_self) (hsel.part (fun _ => Codec.noConfusion) List.mem_cons_self)
      hs (hp.next (.present hv)) hcs
  | array element length ih =>
    obtain ⟨items, rfl, rfl, hitems⟩ := writes_array hw
    obtain ⟨values, hvalues, hread⟩ := items_recovered
      (fun item hm _ hw => ih (hc.part List.mem_cons_self)
        (hsel.part (fun _ => Codec.noConfusion) List.mem_cons_self) hs (hp.next (.item hm)) hw) hitems
    refine ⟨.array values, hvalues, fun buf offset hb hmax => ?_⟩
    exact decode_array_eq_ok.2 ⟨_, _, hread buf offset hb hmax, rfl⟩
  | countedArray count element _ ih =>
    have hbytes : element.TakesBytes := hc.self.1.1.2
    have hmem : element ∈ (countedArray count element).parts := by simp [parts]
    obtain ⟨items, counted, rest, rfl, hcount, hrest, rfl⟩ := writes_countedArray hw
    obtain ⟨w, hl, hlength⟩ := length_recovered hc.self.2 hp.self hcount
    obtain ⟨values, hvalues, hread⟩ := items_recovered
      (fun item hm _ hw => ih (hc.part hmem) (hsel.part (fun _ => Codec.noConfusion) hmem) hs
        (hp.next (.countedItem hm)) hw) hrest
    refine ⟨.array values, hvalues, fun buf offset hb hmax => ?_⟩
    rw [List.length_append] at hmax ⊢
    have hannounced := hlength buf scope offset hb.left
    have hitems := hread buf (offset + counted.length) hb.right (by omega)
    refine decode_countedArray_eq_ok.2 ⟨_, _, _, _, hannounced, hl, ?_, rfl⟩
    simp only [hbytes.decode_guarded]
    exact hitems
  | container fields ih =>
    obtain ⟨record, rfl, hfields⟩ := writes_container hw
    have hnames : Table.names record = Table.names fields := hp.self
    have hnodup : (Table.names record).Nodup := by
      rw [hnames]
      exact hc.self.1.1.1
    have hempty : Record.Equals [] [] := .nil
    obtain ⟨more, hmore, hread⟩ := fields_recovered scope
      (fun field hf _ _ _ hsel hs hw => ih field hf (hc.field hf) hsel hs (hp.next (.field hf)) hw)
      hempty rfl hnodup hnames
      (fun front name d back heq => by
        rw [heq] at hsel
        exact hsel.field) hfields
    refine ⟨.record more, Value.beq_record_iff.2 hmore, fun buf offset hb hmax => ?_⟩
    exact decode_container_eq_ok.2 ⟨_, _, hread buf offset hb hmax, rfl⟩
  | switch on branches default size ihBranches ihDefault =>
    obtain ⟨key, hfull, hw⟩ := writes_switch hw
    have hon : on.NamedIn names := by
      cases hsel with
      | other self _ => exact self
    have hscope := hon.key_eq hs hfull
    have hmem := alternative_mem branches default key
    obtain ⟨w, hw, hread⟩ := alternative_of_forall
      (P := fun d => d.Everywhere Recoverable → d.SelectsEarlier names →
        d.Throughout Plain full value → (d.emit full value).Writes bs →
        Recovers (fun buf offset => d.decode buf scope offset) bs value)
      (fun branch hm hc hsel hp hw => ihBranches branch hm hc hsel hs hp hw)
      (fun hc hsel hp hw => ihDefault hc hsel hs hp hw) key (hc.alternative key)
      (hsel.part (fun _ => Codec.noConfusion) hmem) (hp.next (.alternative hfull)) hw
    refine ⟨w, hw, fun buf offset hb hmax => ?_⟩
    exact decode_switch_eq_ok.2 ⟨key, hscope, hread buf offset hb hmax⟩

end Recovers

/-- Written values are read back. Where a codec has no floating-point numbers, announces lengths by
integers, counts only elements that take bytes and selects by earlier fields, any plain value that is
encoded is decoded as an equal one from its encoding and whatever follows, and nothing else is
consumed. Offsets are words of 64 bits, so the encoding has to end by the largest of them. -/
theorem Compiled.decode_recovers_encoded {c : Codec} (h : c.Compiled) (hf : c.FloatFree)
    (hn : c.Everywhere CountsByInteger) (hi : c.ItemsTakeBytes) (hsel : c.SelectsEarlier [])
    {value : Value} {bs : Bytes} (he : (PacketType.ofCodec c).encode value = .ok bs)
    (hp : c.Throughout Plain [] value) (hmax : bs.length ≤ Bytes.maxOffset) :
    ∃ data, (data == value) = true ∧
      ∀ suffix, (PacketType.ofCodec c).decode (bs ++ suffix) = .ok ⟨data, bs.length⟩ := by
  have hc : c.Everywhere Recoverable := ((h.wellBuilt.and hi).and hf).and hn
  have hw := PacketType.writes_of_encode h.wellBuilt he
  have hs : Scope.AgreeOn [] [] [] := fun _ hm => nomatch hm
  obtain ⟨data, hdata, hread⟩ := recovers_of_emit hc hsel hs hp hw
  refine ⟨data, hdata, fun suffix => ?_⟩
  have hb : bs.StandAt (bs ++ suffix) 0 := ⟨[], suffix, rfl, rfl⟩
  exact Except.bind_eq_ok.2 ⟨_, hread (bs ++ suffix) 0 hb (by omega), rfl⟩

section Message

private def messageOfOne : Record :=
  [("kind", .int 1), ("names", .array [.string "ab"]), ("body", .int 7)]

private theorem message_countsByInteger : message.Everywhere CountsByInteger :=
  message_everywhere trivial trivial trivial trivial trivial fun _ _ => trivial

private theorem message_selectsEarlier : message.SelectsEarlier [] := by
  have leaf {names : List String} (p : Primitive) : SelectsEarlier names (.scalar p) :=
    .other trivial fun _ hd => nomatch hd
  have single {names : List String} {c d : Codec} (h : SelectsEarlier names c) (hd : d ∈ [c]) :
      SelectsEarlier names d := by
    rwa [List.mem_singleton.1 hd]
  refine .container fun front name c back heq => ?_
  rcases front with _ | ⟨kind, _ | ⟨receivers, _ | ⟨_, _⟩⟩⟩
  · cases heq
    exact leaf .u8
  · cases heq
    refine .other trivial fun d hd => ?_
    simp only [parts, List.mem_cons, List.not_mem_nil, or_false] at hd
    rcases hd with rfl | rfl
    · exact leaf .varint
    · exact .other trivial fun d hd => single (leaf .u8) hd
  · cases heq
    have hkind : Discriminant.NamedIn ["kind", "names"] (.field "kind") := by
      exact ⟨by decide, List.mem_cons_self⟩
    refine .other hkind fun d hd => ?_
    simp only [ofBranches, parts, List.map_cons, List.map_nil, List.mem_cons, List.not_mem_nil,
      or_false] at hd
    rcases hd with rfl | rfl
    · exact .other trivial fun d hd => single (leaf .i16) hd
    · exact leaf .u16
  · simp at heq

private theorem message_plain : message.Throughout Plain [] (.record messageOfOne) := by
  refine .container rfl fun field hf => ?_
  simp only [List.mem_cons, List.not_mem_nil, or_false] at hf
  rcases hf with rfl | rfl | rfl
  · exact .scalar ⟨trivial, fun h => nomatch h⟩
  · refine .countedArray (fun _ => by decide) fun item hm => ?_
    obtain rfl := List.mem_singleton.1 hm
    exact .text fun h => nomatch h
  · have hkey : Discriminant.key (.field "kind") [messageOfOne] = .ok "1" := rfl
    exact .switch trivial hkey (.scalar ⟨trivial, fun h => nomatch h⟩)

/-- A message that is given by signed integers is read as one with unsigned integers, and is equal. -/
theorem message_decode_recovers_encoded :
    message.Compiled ∧ message.FloatFree ∧ message.Everywhere CountsByInteger ∧
      message.ItemsTakeBytes ∧ message.SelectsEarlier [] ∧
      (PacketType.ofCodec message).encode (.record messageOfOne) = .ok [1, 1, 2, 97, 98, 0, 7] ∧
      message.Throughout Plain [] (.record messageOfOne) ∧ 7 ≤ Bytes.maxOffset ∧
      ∃ data, (data == .record messageOfOne) = true ∧
        ∀ suffix, (PacketType.ofCodec message).decode ([1, 1, 2, 97, 98, 0, 7] ++ suffix) =
          .ok ⟨data, 7⟩ := by
  have hencode : (PacketType.ofCodec message).encode (.record messageOfOne) =
      .ok [1, 1, 2, 97, 98, 0, 7] := by
    rfl
  have hmax : 7 ≤ Bytes.maxOffset := by decide
  exact ⟨message_compiled, message_floatFree, message_countsByInteger, message_itemsTakeBytes,
    message_selectsEarlier, hencode, message_plain, hmax,
    Compiled.decode_recovers_encoded message_compiled message_floatFree message_countsByInteger
      message_itemsTakeBytes message_selectsEarlier hencode message_plain hmax⟩

end Message

end Codec

end PacketCodec
