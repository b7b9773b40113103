import PacketCodec.Proofs.Codec.ErrorKinds
import PacketCodec.Proofs.Codec.ResolvedOnce

/-!
# Where decoding fails

While a codec is decoded, its parts are: counts, items, fields, the alternative of a switch. When one of them
fails, so does the whole, by the same error, which on the way out has had the names of the fields put to it that
lead to the part. And every failure comes from some part that fails of itself: it lacks bytes, or finds a fault.
-/

namespace PacketCodec

namespace ReadError

/-- The error seen from outside some fields, the outermost first. -/
def along (path : List String) (e : ReadError) : ReadError :=
  path.foldr within e

theorem along_cons (name : String) (path : List String) (e : ReadError) :
    e.along (name :: path) = (e.along path).within name := rfl

theorem along_append (path path' : List String) (e : ReadError) :
    e.along (path ++ path') = (e.along path').along path :=
  List.foldr_append

/-- An error as it arises, outside of no field. -/
def Arises (e : ReadError) : Prop :=
  (∃ needed available, e = .incomplete needed available) ∨ ∃ fault, e = .ofFault fault

end ReadError

/-- What is decoded: a codec, in a scope and from an offset on. -/
structure Decoding where
  codec : Codec
  scope : Scope
  offset : Nat

namespace Decoding

variable {buf : Bytes}

def outcome (buf : Bytes) (d : Decoding) : Except ReadError Decoded :=
  d.codec.decode buf d.scope d.offset

/-- What is decoded in the course of something else, and the name of the field if it is one. What comes before it
has been decoded. -/
inductive Enters (buf : Bytes) : Decoding → List String → Decoding → Prop
  | textCount (count : Codec) (scope : Scope) (offset : Nat) :
      Enters buf ⟨.text count, scope, offset⟩ [] ⟨count, scope, offset⟩
  | blockCount (count : Codec) (scope : Scope) (offset : Nat) :
      Enters buf ⟨.countedBlock count, scope, offset⟩ [] ⟨count, scope, offset⟩
  | arrayCount (count element : Codec) (scope : Scope) (offset : Nat) :
      Enters buf ⟨.countedArray count element, scope, offset⟩ [] ⟨count, scope, offset⟩
  | present {inner : Codec} {scope : Scope} {offset : Nat} {presence : Bytes}
      (hb : takeBytes buf offset 1 = .ok presence) (hp : presence ≠ [0]) :
      Enters buf ⟨.option inner, scope, offset⟩ [] ⟨inner, scope, offset + 1⟩
  | item {element : Codec} {scope : Scope} {offset length done size : Nat} {items : List Value}
      (hlt : done < length)
      (hd : readItems (fun place => element.decode buf scope place) done offset = .ok (items, size)) :
      Enters buf ⟨.array element length, scope, offset⟩ [] ⟨element, scope, offset + size⟩
  | countedItem {count element : Codec} {scope : Scope} {offset length done size : Nat}
      {announced : Decoded} {items : List Value}
      (ha : count.decode buf scope offset = .ok announced) (hl : lengthOf announced.value = .ok length)
      (hlt : done < length)
      (hd : readItems
        (fun place => element.decode buf scope place >>=
          guardZeroWidth length (buf.length - (offset + announced.size)))
        done (offset + announced.size) = .ok (items, size)) :
      Enters buf ⟨.countedArray count element, scope, offset⟩ []
        ⟨element, scope, offset + announced.size + size⟩
  | field {front back : List (String × Codec)} {name : String} {c : Codec} {scope : Scope}
      {offset size : Nat} {record : Record}
      (hd : Codec.decodeFields front buf scope offset [] = .ok (record, size)) :
      Enters buf ⟨.container (front ++ (name, c) :: back), scope, offset⟩ [name]
        ⟨c, record :: scope, offset + size⟩
  | alternative {on : Discriminant} {branches : List (String × Codec)} {default : Codec}
      {size : Option Nat} {scope : Scope} {key : String} (offset : Nat)
      (hk : on.key scope = .ok key) :
      Enters buf ⟨.switch on branches default size, scope, offset⟩ []
        ⟨Codec.alternative branches default key, scope, offset⟩

/-- What is decoded at any depth, and the names of the fields that lead there. -/
inductive Reaches (buf : Bytes) : Decoding → List String → Decoding → Prop
  | here (d : Decoding) : Reaches buf d [] d
  | step {d d' d'' : Decoding} {path path' : List String} (head : Enters buf d path d')
      (tail : Reaches buf d' path' d'') : Reaches buf d (path ++ path') d''

section Items

variable {read : Nat → Except ReadError Decoded} {count done offset size : Nat} {items : List Value}
  {e : ReadError}

theorem readItems_error_of (hlt : done < count) (hd : readItems read done offset = .ok (items, size))
    (he : read (offset + size) = .error e) : readItems read count offset = .error e := by
  induction done generalizing count offset items size with
  | zero =>
    cases hd
    cases count with
    | zero => exact absurd hlt (Nat.lt_irrefl 0)
    | succ count => exact Except.bind_of_error he _
  | succ done ih =>
    obtain ⟨item, hitem, hd⟩ := Except.bind_eq_ok.1 hd
    obtain ⟨⟨rest, sizes⟩, hrest, hd⟩ := Except.bind_eq_ok.1 hd
    cases hd
    cases count with
    | zero => exact absurd hlt (Nat.not_lt_zero _)
    | succ count =>
      rw [← Nat.add_assoc] at he
      have hfails := ih (Nat.lt_of_succ_lt_succ hlt) hrest he
      rw [readItems, hitem]
      show (readItems read count (offset + item.size) >>= _) = _
      rw [hfails]
      rfl

theorem exists_done_of_readItems (h : readItems read count offset = .error e) :
    ∃ done items size, done < count ∧ readItems read done offset = .ok (items, size) ∧
      read (offset + size) = .error e := by
  induction count generalizing offset with
  | zero => cases h
  | succ count ih =>
    rcases Except.bind_eq_error.1 h with he | ⟨item, hitem, h⟩
    · exact ⟨0, [], 0, Nat.succ_pos count, rfl, he⟩
    · have hrest : readItems read count (offset + item.size) = .error e :=
        Except.error_of_bind h fun _ => nofun
      obtain ⟨done, items, size, hlt, hd, he⟩ := ih hrest
      refine ⟨done + 1, item.value :: items, item.size + size, Nat.succ_lt_succ hlt, ?_, ?_⟩
      · simp only [readItems, hitem, hd, bind, Except.bind]
        rfl
      · rwa [← Nat.add_assoc]

end Items

section Fields

variable {fields front back : List (String × Codec)} {scope : Scope} {offset size : Nat}
  {record record' : Record} {name : String} {c : Codec} {e : ReadError}

theorem decodeFields_error_of
    (hd : Codec.decodeFields front buf scope offset record = .ok (record', size))
    (he : c.decode buf (record' :: scope) (offset + size) = .error e) :
    Codec.decodeFields (front ++ (name, c) :: back) buf scope offset record =
      .error (e.within name) := by
  rw [Codec.decodeFields_append, hd]
  show (Codec.decodeFields ((name, c) :: back) buf scope (offset + size) record' >>= _) = _
  rw [Codec.decodeFields, he]
  rfl

theorem exists_front_of_decodeFields
    (h : Codec.decodeFields fields buf scope offset record = .error e) :
    ∃ front name c back record' size e', fields = front ++ (name, c) :: back ∧
      Codec.decodeFields front buf scope offset record = .ok (record', size) ∧
      c.decode buf (record' :: scope) (offset + size) = .error e' ∧ e = e'.within name := by
  induction fields generalizing offset record with
  | nil => cases h
  | cons field rest ih =>
    obtain ⟨name, c⟩ := field
    rcases Except.bind_eq_error.1 h with he | ⟨item, hitem, h⟩
    · obtain ⟨e', he', hwithin⟩ := Except.mapError_eq_error.1 he
      exact ⟨[], name, c, rest, record, 0, e', rfl, rfl, he', hwithin.symm⟩
    · have hrest : Codec.decodeFields rest buf scope (offset + item.size)
          (Table.push record name item.value) = .error e :=
        Except.error_of_bind h fun _ => nofun
      obtain ⟨front, name', c', back, record', size, e', hfields, hd, he', hwithin⟩ := ih hrest
      refine ⟨(name, c) :: front, name', c', back, record', item.size + size, e', ?_, ?_, ?_, hwithin⟩
      · rw [hfields, List.cons_append]
      · simp only [Codec.decodeFields, hitem, hd, bind, Except.bind]
        rfl
      · rwa [← Nat.add_assoc]

end Fields

/-- Whatever fails of an outcome in decoding something is a part that is entered, or it arises there. -/
def Traced (buf : Bytes) (d : Decoding) {α : Type} (x : Except ReadError α) : Prop :=
  ∀ e, x = .error e → e.Arises ∨
    ∃ path d' e', Enters buf d path d' ∧ d'.outcome buf = .error e' ∧ e = e'.along path

section Traced

variable {d d' : Decoding} {α β : Type}

theorem traced_ok (a : α) : Traced buf d (.ok a : Except ReadError α) :=
  fun _ h => nomatch h

theorem traced_incomplete (needed available : Nat) :
    Traced buf d (.error (.incomplete needed available) : Except ReadError α) := by
  intro e h
  cases h
  exact .inl (.inl ⟨_, _, rfl⟩)

theorem traced_fault (fault : DecodeFault) :
    Traced buf d (.error (.ofFault fault) : Except ReadError α) := by
  intro e h
  cases h
  exact .inl (.inr ⟨_, rfl⟩)

theorem Traced.bind {x : Except ReadError α} {f : α → Except ReadError β} (hx : Traced buf d x)
    (hf : ∀ a, x = .ok a → Traced buf d (f a)) : Traced buf d (x >>= f) := by
  intro e h
  rcases Except.bind_eq_error.1 h with h | ⟨a, ha, h⟩
  · exact hx e h
  · exact hf a ha e h

theorem Enters.traced (h : Enters buf d [] d') : Traced buf d (d'.outcome buf) :=
  fun e he => .inr ⟨[], d', e, h, he, rfl⟩

theorem traced_takeBytes (offset count : Nat) : Traced buf d (takeBytes buf offset count) := by
  unfold takeBytes
  split
  · exact traced_ok _
  · exact traced_incomplete _ _

theorem traced_takeCounted (offset count : Nat) : Traced buf d (takeCounted buf offset count) := by
  unfold takeCounted
  split
  · exact traced_fault _
  · exact traced_takeBytes offset count

theorem traced_readGroups (left offset : Nat) :
    Traced buf d (Varint.readGroups buf left offset) := by
  induction left generalizing offset with
  | zero => exact traced_fault _
  | succ left ih =>
    have hbyte : Traced buf d (Varint.readByte buf offset) := by
      unfold Varint.readByte
      split
      · exact traced_ok _
      · exact traced_incomplete _ _
    refine hbyte.bind fun b _ => ?_
    split
    · exact traced_ok _
    · exact (ih (offset + 1)).bind fun _ _ => traced_ok _

theorem traced_read (s : Scalar) (offset : Nat) : Traced buf d (s.read buf offset) := by
  cases s with
  | void => exact traced_ok _
  | varint =>
    refine Traced.bind ?_ fun _ _ => traced_ok _
    exact (traced_readGroups _ offset).bind fun _ _ => traced_ok _
  | _ => exact (traced_takeBytes offset _).bind fun _ _ => traced_ok _

theorem traced_lengthOf (value : Value) : Traced buf d (lengthOf value) := by
  unfold lengthOf
  split
  · exact traced_ok _
  · exact traced_fault _

theorem traced_guardZeroWidth (count remaining : Nat) (item : Decoded) :
    Traced buf d (guardZeroWidth count remaining item) := by
  unfold guardZeroWidth
  split
  · exact traced_fault _
  · exact traced_ok _

theorem traced_readItems {read : Nat → Except ReadError Decoded} {count offset : Nat}
    (h : ∀ done items size, done < count → readItems read done offset = .ok (items, size) →
      Traced buf d (read (offset + size))) : Traced buf d (readItems read count offset) := by
  intro e he
  obtain ⟨done, items, size, hlt, hd, he⟩ := exists_done_of_readItems he
  exact h done items size hlt hd e he

theorem traced_fields (fields : List (String × Codec)) (scope : Scope) (offset : Nat) :
    Traced buf ⟨.container fields, scope, offset⟩ (Codec.decodeFields fields buf scope offset []) := by
  intro e he
  obtain ⟨front, name, c, back, record, size, e', rfl, hd, he', hwithin⟩ :=
    exists_front_of_decodeFields he
  exact .inr ⟨[name], _, e', .field hd, he', hwithin⟩

theorem traced_outcome (d : Decoding) : Traced buf d (d.outcome buf) := by
  obtain ⟨c, scope, offset⟩ := d
  simp only [outcome]
  cases c with
  | scalar p => exact (traced_read p.scalar offset).bind fun _ _ => traced_ok _
  | text count =>
    refine (Enters.textCount count scope offset).traced.bind fun announced _ => ?_
    refine (traced_lengthOf announced.value).bind fun length _ => ?_
    refine (traced_takeCounted _ length).bind fun bs _ => ?_
    split
    · exact traced_ok _
    · exact traced_fault _
  | block length => exact (traced_takeCounted offset length).bind fun _ _ => traced_ok _
  | countedBlock count =>
    refine (Enters.blockCount count scope offset).traced.bind fun announced _ => ?_
    refine (traced_lengthOf announced.value).bind fun length _ => ?_
    exact (traced_takeCounted _ length).bind fun _ _ => traced_ok _
  | option inner =>
    refine (traced_takeBytes offset 1).bind fun presence hb => ?_
    by_cases hp : presence = [0]
    · rw [if_pos hp]
      exact traced_ok _
    · rw [if_neg hp]
      exact (Enters.present hb hp).traced.bind fun _ _ => traced_ok _
  | array element length =>
    refine Traced.bind ?_ fun _ _ => traced_ok _
    exact traced_readItems fun done items size hlt hd => (Enters.item hlt hd).traced
  | countedArray count element =>
    refine (Enters.arrayCount count element scope offset).traced.bind fun announced ha => ?_
    refine (traced_lengthOf announced.value).bind fun length hl => ?_
    refine Traced.bind ?_ fun _ _ => traced_ok _
    apply traced_readItems
    intro done items size hlt hd
    exact (Enters.countedItem ha hl hlt hd).traced.bind fun item _ =>
      traced_guardZeroWidth length _ item
  | container fields => exact (traced_fields fields scope offset).bind fun _ _ => traced_ok _
  | switch on branches default size =>
    rw [Codec.decode_switch]
    cases hk : on.key scope with
    | error fault => exact traced_fault _
    | ok key => exact (Enters.alternative offset hk).traced

end Traced

section Failures

variable {d d' : Decoding} {path : List String} {e : ReadError}

theorem Enters.outcome_eq_error (h : Enters buf d path d') (he : d'.outcome buf = .error e) :
    d.outcome buf = .error (e.along path) := by
  cases h with
  | textCount => exact Except.bind_of_error he _
  | blockCount => exact Except.bind_of_error he _
  | arrayCount => exact Except.bind_of_error he _
  | present hb hp =>
    refine Except.bind_eq_error.2 (.inr ⟨_, hb, ?_⟩)
    rw [if_neg hp]
    exact Except.bind_of_error he _
  | item hlt hd => exact Except.bind_of_error (readItems_error_of hlt hd he) _
  | countedItem ha hl hlt hd =>
    refine Except.bind_eq_error.2 (.inr ⟨_, ha, ?_⟩)
    refine Except.bind_eq_error.2 (.inr ⟨_, hl, ?_⟩)
    exact Except.bind_of_error (readItems_error_of hlt hd (Except.bind_of_error he _)) _
  | field hd => exact Except.bind_of_error (decodeFields_error_of hd he) _
  | alternative offset hk =>
    show Codec.decode _ _ _ _ = _
    rw [Codec.decode_switch, hk]
    exact he

/-- A failure at any depth is the failure of the whole, seen through the fields that lead to it. -/
theorem Reaches.outcome_eq_error (h : Reaches buf d path d') (he : d'.outcome buf = .error e) :
    d.outcome buf = .error (e.along path) := by
  induction h with
  | here => exact he
  | step head _ ih =>
    rw [ReadError.along_append]
    exact head.outcome_eq_error (ih he)

theorem Enters.mem_parts (h : Enters buf d path d') : d'.codec ∈ d.codec.parts := by
  cases h with
  | textCount => simp [Codec.parts]
  | blockCount => simp [Codec.parts]
  | arrayCount => simp [Codec.parts]
  | present => simp [Codec.parts]
  | item => simp [Codec.parts]
  | countedItem => simp [Codec.parts]
  | field => simp [Codec.parts]
  | alternative => exact Codec.alternative_mem _ _ _

/-- A failure that arises in decoding something, none of whose parts fails. -/
structure FailsItself (buf : Bytes) (d : Decoding) (e : ReadError) : Prop where
  outcome : d.outcome buf = .error e
  arises : e.Arises
  parts {path : List String} {d' : Decoding} (h : Enters buf d path d') (e' : ReadError) :
    d'.outcome buf ≠ .error e'

/-- Every failure comes from something, at some depth, that fails itself. -/
theorem exists_origin (he : d.outcome buf = .error e) :
    ∃ path d' e', Reaches buf d path d' ∧ FailsItself buf d' e' ∧ e = e'.along path := by
  -- What is entered is a part, so the induction is on the parts of the codec.
  have hparts : d.codec.Everywhere fun _ => True := .of_forall (fun _ => trivial) d.codec
  generalize hc : d.codec = c at hparts
  induction hparts generalizing d e with
  | intro _ _ ih =>
    by_cases hentered : ∃ path d' e', Enters buf d path d' ∧ d'.outcome buf = .error e'
    · obtain ⟨path, d', e', henters, he'⟩ := hentered
      have hm := henters.mem_parts
      rw [hc] at hm
      obtain ⟨path', origin, cause, hreaches, hfails, rfl⟩ := ih d'.codec hm he' rfl
      have heq : e = (cause.along path').along path :=
        Except.error.inj (he.symm.trans (henters.outcome_eq_error he'))
      refine ⟨path ++ path', origin, cause, .step henters hreaches, hfails, ?_⟩
      rw [heq, ReadError.along_append]
    · have harises : e.Arises := by
        rcases traced_outcome d e he with h | ⟨path, d', e', henters, he', _⟩
        · exact h
        · exact absurd ⟨path, d', e', henters, he'⟩ hentered
      refine ⟨[], d, e, .here d, ⟨he, harises, ?_⟩, rfl⟩
      exact fun henters e' he' => hentered ⟨_, _, e', henters, he'⟩

end Failures

end Decoding

end PacketCodec
