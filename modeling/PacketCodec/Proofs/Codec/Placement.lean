import PacketCodec.Proofs.Codec.Extension
import PacketCodec.Proofs.Codec.Measure

/-!
# Writing in place

An emission is a list of pieces, which are placed when all of them are known. Here a codec writes each piece at
once, where the one before it has ended, and hands the offset on through counts, items and fields. Both leave
the same destination and come out alike. So what is written does not depend on where it is written, and neither
the bytes in front of it, nor those behind it, nor the length of the destination change.
-/

namespace PacketCodec

/-- Writing into a destination. What has been written when an error stops it stays there. -/
abbrev Writing (α : Type) := ExceptT EncodeError (StateM Bytes) α

namespace Writing

variable {α : Type}

def check (outcome : Except EncodeFault α) : Writing α :=
  ExceptT.mk (pure (checked outcome))

/-- Writes bytes at once and hands on the offset behind them. -/
def put (bs : Bytes) (offset : Nat) : Writing Nat := do
  let dest ← get
  if offset + bs.length ≤ dest.length then
    set (dest.overwrite offset bs)
    return offset + bs.length
  else throw (.here (.noRoom (min (offset + bs.length) Bytes.maxOffset) dest.length))

def putEach : List Bytes → Nat → Writing Nat
  | [], offset => return offset
  | bs :: rest, offset => do
    let offset ← put bs offset
    putEach rest offset

/-- The writing seen from outside a field. -/
def within (name : String) (w : Writing α) : Writing α :=
  ExceptT.mk (w.run.map fun outcome => outcome.mapError (Located.within name))

def items (write : Value → Nat → Writing Nat) : List Value → Nat → Writing Nat
  | [], offset => return offset
  | item :: rest, offset => do
    let offset ← write item offset
    items write rest offset

end Writing

open Writing

namespace Codec

mutual

/-- Writes a value from an offset on and hands on the offset behind it. -/
def write : Codec → Scope → Value → Nat → Writing Nat
  | .scalar p, _, value, offset => do
    let bs ← check (p.scalar.encode p.name value)
    putEach (p.scalar.pieces bs) offset
  | .text count, scope, value, offset => do
    let bs ← check (expectText value)
    let n ← check (countValue bs.length)
    let offset ← count.write scope n offset
    put bs offset
  | .block length, _, value, offset => do
    let bs ← check (expectBytes (some length) value)
    put bs offset
  | .countedBlock count, scope, value, offset => do
    let bs ← check (expectBytes none value)
    let n ← check (countValue bs.length)
    let offset ← count.write scope n offset
    put bs offset
  | .option inner, scope, value, offset =>
    match value with
    | .null => put [0] offset
    | value => do
      let offset ← put [1] offset
      inner.write scope value offset
  | .array element length, scope, value, offset => do
    let values ← check (expectItems (some length) value)
    items (fun item => element.write scope item) values offset
  | .countedArray count element, scope, value, offset => do
    let values ← check (expectItems none value)
    let n ← check (countValue values.length)
    let offset ← count.write scope n offset
    items (fun item => element.write scope item) values offset
  | .container fields, scope, value, offset => do
    let record ← check (expectRecord value)
    writeFields fields scope record offset
  | .switch on branches default _, scope, value, offset => do
    let key ← check ((on.key scope).mapError EncodeFault.discriminant)
    match writeBranch branches key scope value offset with
    | some w => w
    | none => default.write scope value offset

def writeFields : List (String × Codec) → Scope → Record → Nat → Writing Nat
  | [], _, _, offset => return offset
  | (name, c) :: rest, scope, record, offset => do
    let offset ← within name (c.write (record :: scope) (fieldValue record name) offset)
    writeFields rest scope record offset

def writeBranch : List (String × Codec) → String → Scope → Value → Nat → Option (Writing Nat)
  | [], _, _, _, _ => none
  | (k, c) :: rest, key, scope, value, offset =>
    if k = key then some (c.write scope value offset)
    else writeBranch rest key scope value offset

end

end Codec

namespace Bytes

variable {dest : Bytes} {offset : Nat} {bs cs : Bytes}

theorem overwrite_nil (dest : Bytes) (offset : Nat) : dest.overwrite offset [] = dest := by
  rw [overwrite, List.append_nil, List.length_nil, Nat.add_zero, List.take_append_drop]

theorem length_overwrite (h : dest.Covers offset bs.length) :
    (dest.overwrite offset bs).length = dest.length := by
  rcases h with h | h
  · rw [List.eq_nil_of_length_eq_zero h, overwrite_nil]
  · simp only [overwrite, List.length_append, List.length_take, List.length_drop]
    omega

theorem take_overwrite (h : dest.Covers offset bs.length) :
    (dest.overwrite offset bs).take offset = dest.take offset := by
  rcases h with h | h
  · rw [List.eq_nil_of_length_eq_zero h, overwrite_nil]
  · have hlength : (dest.take offset).length = offset := by
      rw [List.length_take]
      omega
    rw [overwrite, List.append_assoc, List.take_left' hlength]

theorem overwrite_overwrite (h : offset + bs.length ≤ dest.length) :
    (dest.overwrite offset bs).overwrite (offset + bs.length) cs = dest.overwrite offset (bs ++ cs) := by
  have hlength : (dest.take offset ++ bs).length = offset + bs.length := by
    rw [List.length_append, List.length_take]
    omega
  have hbehind : (dest.overwrite offset bs).drop (offset + bs.length + cs.length) =
      dest.drop (offset + (bs ++ cs).length) := by
    rw [overwrite, ← hlength, ← List.drop_drop, List.drop_left, List.drop_drop, hlength,
      List.length_append, Nat.add_assoc]
  rw [overwrite, hbehind, overwrite, List.take_left' hlength, overwrite, List.append_assoc _ bs cs]

end Bytes

section Fitting

variable {limit offset : Nat} {pieces more : List Piece} {bs : Bytes} {rejected : Option Piece}

theorem bound_of_fitting (h : fitting limit pieces offset = (bs, rejected)) :
    bs = [] ∨ offset + bs.length ≤ limit := by
  induction pieces generalizing offset bs with
  | nil =>
    cases h
    exact .inl rfl
  | cons p rest ih =>
    rw [fitting] at h
    split at h
    · rename_i hp
      cases hr : fitting limit rest (offset + p.bytes.length) with
      | mk behind rejected' =>
        rw [hr] at h
        cases h
        rcases ih hr with rfl | hle
        · exact .inr (by rwa [List.append_nil])
        · exact .inr (by rwa [List.length_append, ← Nat.add_assoc])
    · cases h
      exact .inl rfl

theorem fitting_append (limit : Nat) (pieces more : List Piece) (offset : Nat) :
    fitting limit (pieces ++ more) offset =
      match fitting limit pieces offset with
      | (bs, none) => (bs ++ (fitting limit more (offset + bs.length)).1,
          (fitting limit more (offset + bs.length)).2)
      | (bs, some p) => (bs, some p) := by
  induction pieces generalizing offset with
  | nil => rfl
  | cons p rest ih =>
    simp only [List.cons_append, fitting]
    split
    · rw [ih]
      cases fitting limit rest (offset + p.bytes.length) with
      | mk bs rejected =>
        cases rejected with
        | some _ => rfl
        | none => simp only [List.append_assoc, List.length_append, Nat.add_assoc]
    · rfl

end Fitting

theorem placePieces_append (pieces more : List Piece) (dest : Bytes) (offset : Nat) :
    placePieces (pieces ++ more) dest offset =
      match placePieces pieces dest offset with
      | ⟨dest, .ok stop⟩ => placePieces more dest stop
      | ⟨dest, .error e⟩ => ⟨dest, .error e⟩ := by
  simp only [placePieces, fitting_append]
  cases hf : fitting dest.length pieces offset with
  | mk bs rejected =>
    cases rejected with
    | some p => rfl
    | none =>
      rcases bound_of_fitting hf with rfl | hle
      · simp only [Bytes.overwrite_nil, List.length_nil, Nat.add_zero, List.nil_append]
      · have hlength := Bytes.length_overwrite (.inr hle)
        simp only [hlength, Bytes.overwrite_overwrite hle, List.length_append, Nat.add_assoc]

namespace Emission

variable {dest : Bytes} {offset : Nat}

theorem place_append (a b : Emission) (dest : Bytes) (offset : Nat) :
    (a ++ b).place dest offset =
      match a.place dest offset with
      | ⟨dest, .ok stop⟩ => b.place dest stop
      | ⟨dest, .error e⟩ => ⟨dest, .error e⟩ := by
  obtain ⟨ps, failure⟩ := a
  obtain ⟨qs, failure'⟩ := b
  cases failure with
  | some e =>
    change place ⟨ps, some e⟩ dest offset = _
    simp only [place]
    cases placePieces ps dest offset with
    | mk dest outcome => cases outcome <;> rfl
  | none =>
    change place ⟨ps ++ qs, failure'⟩ dest offset = _
    simp only [place, placePieces_append]
    cases placePieces ps dest offset with
    | mk dest outcome =>
      cases outcome with
      | error e => cases failure' <;> rfl
      | ok stop => rfl

private theorem fitting_within (name : String) (limit : Nat) (pieces : List Piece) (offset : Nat) :
    fitting limit (pieces.map fun p => ⟨name :: p.path, p.bytes⟩) offset =
      ((fitting limit pieces offset).1,
        (fitting limit pieces offset).2.map fun p => ⟨name :: p.path, p.bytes⟩) := by
  induction pieces generalizing offset with
  | nil => rfl
  | cons p rest ih =>
    simp only [List.map_cons, fitting]
    split
    · rw [ih]
    · rfl

theorem place_within (name : String) (e : Emission) (dest : Bytes) (offset : Nat) :
    (e.within name).place dest offset =
      ⟨(e.place dest offset).dest, (e.place dest offset).outcome.mapError (Located.within name)⟩ := by
  obtain ⟨ps, failure⟩ := e
  simp only [within, place, placePieces, fitting_within]
  cases fitting dest.length ps offset with
  | mk bs rejected => cases rejected <;> cases failure <;> rfl

/-- Whatever fits of an emission is written at the offset, and nothing else happens to the destination. -/
theorem exists_dest_place (e : Emission) (dest : Bytes) (offset : Nat) :
    ∃ bs : Bytes, dest.Covers offset bs.length ∧
      (e.place dest offset).dest = dest.overwrite offset bs := by
  cases hf : fitting dest.length e.pieces offset with
  | mk bs rejected =>
    refine ⟨bs, ?_, ?_⟩
    · exact (bound_of_fitting hf).imp_left (congrArg List.length)
    · simp only [place, placePieces, hf]
      cases rejected <;> cases e.failure <;> rfl

section Placed

variable {a b e : Emission} {u v w : Nat → Writing Nat}

/-- Placing an emission is what a writing does, at every offset of every destination. -/
def PlacedBy (e : Emission) (w : Nat → Writing Nat) : Prop :=
  ∀ dest offset,
    (w offset).run.run dest = ((e.place dest offset).outcome, (e.place dest offset).dest)

theorem placedBy_empty : empty.PlacedBy fun offset => return offset := by
  intro dest offset
  have hplace : empty.place dest offset = ⟨dest, .ok offset⟩ :=
    congrArg (fun dest => Placement.mk dest (.ok offset)) (Bytes.overwrite_nil dest offset)
  rw [hplace]
  rfl

theorem placedBy_piece (bs : Bytes) : (piece bs).PlacedBy (put bs) := by
  intro dest offset
  have hput : (put bs offset).run.run dest =
      if offset + bs.length ≤ dest.length then (.ok (offset + bs.length), dest.overwrite offset bs)
      else (.error (.here (.noRoom (min (offset + bs.length) Bytes.maxOffset) dest.length)),
        dest) := by
    by_cases h : offset + bs.length ≤ dest.length
    · rw [if_pos h]
      change (ite _ _ _ : Writing Nat).run.run dest = _
      rw [if_pos h]
      rfl
    · rw [if_neg h]
      change (ite _ _ _ : Writing Nat).run.run dest = _
      rw [if_neg h]
      rfl
  rw [hput]
  split
  · rename_i h
    have hfits : offset + (piece bs).bytes.length ≤ dest.length := by
      rwa [(writes_piece bs).2]
    rw [place_eq_of_le hfits, size_piece, (writes_piece bs).2]
    rfl
  · rename_i h
    simp only [place, piece, placePieces, fitting, if_neg h, Bytes.overwrite_nil, List.length_nil,
      Nat.add_zero]
    rfl

theorem PlacedBy.append (ha : a.PlacedBy u) (hb : b.PlacedBy v) :
    (a ++ b).PlacedBy fun offset => u offset >>= v := by
  intro dest offset
  rw [ExceptT.run_run_bind, ha, place_append]
  cases a.place dest offset with
  | mk dest outcome =>
    cases outcome with
    | error e => rfl
    | ok stop => exact hb dest stop

theorem PlacedBy.within (h : e.PlacedBy w) (name : String) :
    (e.within name).PlacedBy fun offset => Writing.within name (w offset) := by
  intro dest offset
  have hrun : (Writing.within name (w offset)).run.run dest =
      (((w offset).run.run dest).1.mapError (Located.within name), ((w offset).run.run dest).2) := by
    rfl
  rw [hrun, h, place_within]

theorem PlacedBy.ofExcept {α : Type} (outcome : Except EncodeFault α) {emit : α → Emission}
    {write : α → Nat → Writing Nat} (h : ∀ x, (emit x).PlacedBy (write x)) :
    (Emission.ofExcept outcome emit).PlacedBy fun offset =>
      check outcome >>= fun x => write x offset := by
  cases outcome with
  | ok x => exact h x
  | error fault =>
    intro dest offset
    have hplace : (fail fault).place dest offset = ⟨dest, .error (.here fault)⟩ :=
      congrArg (fun dest => Placement.mk dest (.error (.here fault))) (Bytes.overwrite_nil dest offset)
    change _ = (((fail fault).place dest offset).outcome, ((fail fault).place dest offset).dest)
    rw [hplace]
    rfl

theorem PlacedBy.items {emit : Value → Emission} {write : Value → Nat → Writing Nat}
    (h : ∀ value, (emit value).PlacedBy (write value)) (values : List Value) :
    (Emission.items emit values).PlacedBy (Writing.items write values) := by
  induction values with
  | nil => exact placedBy_empty
  | cons value rest ih => exact (h value).append ih

theorem placedBy_pieces (pieces : List Bytes) :
    PlacedBy ⟨pieces.map fun piece => ⟨[], piece⟩, none⟩ (putEach pieces) := by
  induction pieces with
  | nil => exact placedBy_empty
  | cons bs rest ih => exact (placedBy_piece bs).append ih

end Placed

end Emission

namespace Codec

private theorem writeBranch_eq (branches : List (String × Codec)) (key : String) (scope : Scope)
    (value : Value) (offset : Nat) : writeBranch branches key scope value offset =
      (Table.get? branches key).map fun c => c.write scope value offset :=
  Table.eq_map_get? (fun rest => writeBranch rest key scope value offset) rfl (fun _ _ _ => rfl) branches

theorem write_switch (on : Discriminant) (branches : List (String × Codec)) (default : Codec)
    (size : Option Nat) (scope : Scope) (value : Value) :
    (Codec.switch on branches default size).write scope value = fun offset => (do
      let key ← check ((on.key scope).mapError EncodeFault.discriminant)
      (alternative branches default key).write scope value offset) := by
  funext offset
  rw [write]
  congr 1
  funext key
  simp only [writeBranch_eq, alternative]
  cases Table.get? branches key <;> rfl

private theorem placedBy_counted {count : Codec} {scope : Scope}
    (ih : ∀ value, (count.emit scope value).PlacedBy (count.write scope value)) (n : Nat)
    {content : Emission} {w : Nat → Writing Nat} (h : content.PlacedBy w) :
    (Emission.ofExcept (countValue n) (fun v => count.emit scope v) ++ content).PlacedBy
      fun offset => (do
        let v ← check (countValue n)
        let offset ← count.write scope v offset
        w offset) := by
  have hcount := (Emission.PlacedBy.ofExcept (countValue n) ih).append h
  simpa only [bind_assoc] using hcount

private theorem placedBy_fields {fields : List (String × Codec)}
    (ih : ∀ field ∈ fields, ∀ scope value,
      (field.2.emit scope value).PlacedBy (field.2.write scope value))
    (scope : Scope) (record : Record) :
    (emitFields fields scope record).PlacedBy (writeFields fields scope record) := by
  induction fields with
  | nil => exact Emission.placedBy_empty
  | cons field rest ihRest =>
    obtain ⟨name, c⟩ := field
    have hc := ih (name, c) List.mem_cons_self (record :: scope) (fieldValue record name)
    exact (hc.within name).append (ihRest fun field hf => ih field (List.mem_cons_of_mem _ hf))

/-- Writing a value in place comes to the placement of its emission. -/
theorem emit_placedBy_write (c : Codec) :
    ∀ scope value, (c.emit scope value).PlacedBy (c.write scope value) := by
  induction c with
  | scalar p =>
    intro scope value
    rw [emit]
    simp only [write]
    exact .ofExcept _ fun bs => Emission.placedBy_pieces (p.scalar.pieces bs)
  | text count ih =>
    intro scope value
    rw [emit]
    simp only [write]
    exact .ofExcept _ fun bs => placedBy_counted (ih scope) _ (Emission.placedBy_piece bs)
  | block length =>
    intro scope value
    rw [emit]
    simp only [write]
    exact .ofExcept _ Emission.placedBy_piece
  | countedBlock count ih =>
    intro scope value
    rw [emit]
    simp only [write]
    exact .ofExcept _ fun bs => placedBy_counted (ih scope) _ (Emission.placedBy_piece bs)
  | option inner ih =>
    intro scope value
    cases value with
    | null => exact Emission.placedBy_piece [0]
    | _ => exact (Emission.placedBy_piece [1]).append (ih scope _)
  | array element length ih =>
    intro scope value
    rw [emit]
    simp only [write]
    exact .ofExcept _ fun values => .items (ih scope) values
  | countedArray count element ihCount ihElement =>
    intro scope value
    rw [emit]
    simp only [write]
    exact .ofExcept _ fun values => placedBy_counted (ihCount scope) _ (.items (ihElement scope) values)
  | container fields ih =>
    intro scope value
    rw [emit]
    simp only [write]
    exact .ofExcept _ fun record => placedBy_fields ih scope record
  | switch on branches default size ihBranches ihDefault =>
    intro scope value
    rw [emit_switch, write_switch]
    refine .ofExcept _ fun key => ?_
    exact alternative_of_forall (P := fun d => (d.emit scope value).PlacedBy (d.write scope value))
      (fun branch hb => ihBranches branch hb scope value) (ihDefault scope value) key

/-- A value that is measured is written as bytes of its own, the same wherever they fit, and leaves the
destination in front of them and behind them as it was. Where encoding fails, the destination keeps its length and
what is in front of the offset. Writing in place comes to the same. -/
theorem Compiled.encode_in_window {c : Codec} (h : c.Compiled) (scope : Scope) (value : Value) :
    (∀ n, c.measure scope value = .ok n → ∃ bs : Bytes, bs.length = n ∧
      ∀ dest offset, offset + n ≤ dest.length →
        c.encode scope value dest offset =
          ⟨dest.take offset ++ bs ++ dest.drop (offset + n), .ok (offset + n)⟩) ∧
    (∀ dest offset e, (c.encode scope value dest offset).outcome = .error e →
      (c.encode scope value dest offset).dest.take offset = dest.take offset ∧
        (c.encode scope value dest offset).dest.length = dest.length) ∧
    ∀ dest offset, (c.write scope value offset).run.run dest =
      ((c.encode scope value dest offset).outcome, (c.encode scope value dest offset).dest) := by
  refine ⟨fun n hn => ?_, fun dest offset e _ => ?_, c.emit_placedBy_write scope value⟩
  · rw [measure_eq_size h.wellBuilt] at hn
    obtain ⟨_, rfl⟩ := Emission.size_eq_ok hn
    refine ⟨(c.emit scope value).bytes, rfl, fun dest offset hfits => ?_⟩
    rw [encode, Emission.place_eq_of_le hfits, hn]
    rfl
  · obtain ⟨bs, hcovers, hdest⟩ := (c.emit scope value).exists_dest_place dest offset
    rw [encode, hdest]
    exact ⟨Bytes.take_overwrite hcovers, Bytes.length_overwrite hcovers⟩

theorem message_encode_in_window :
    message.Compiled ∧ message.measure [] (messageTo [.string "ab"]) = .ok 7 ∧
      (∃ bs : Bytes, bs.length = 7 ∧
        message.encode [] (messageTo [.string "ab"]) (List.replicate 9 255) 1 =
          ⟨255 :: bs ++ [255], .ok 8⟩ ∧
        message.encode [] (messageTo [.string "ab"]) (List.replicate 7 0) 0 = ⟨bs, .ok 7⟩) ∧
      (message.encode [] (messageTo [.uint 5]) (List.replicate 9 255) 2).outcome =
        .error ⟨["names"], .expectedString .integer⟩ ∧
      (message.encode [] (messageTo [.uint 5]) (List.replicate 9 255) 2).dest.take 2 = [255, 255] := by
  have hmeasure : message.measure [] (messageTo [.string "ab"]) = .ok 7 := by rfl
  have hrefused : (message.encode [] (messageTo [.uint 5]) (List.replicate 9 255) 2).outcome =
      .error ⟨["names"], .expectedString .integer⟩ := by rfl
  obtain ⟨bs, hlength, hwindow⟩ := (Compiled.encode_in_window message_compiled [] _).1 7 hmeasure
  refine ⟨message_compiled, hmeasure, ⟨bs, hlength, ?_, ?_⟩, hrefused, ?_⟩
  · exact hwindow (List.replicate 9 255) 1 (by decide)
  · have hwhole := hwindow (List.replicate 7 0) 0 (by decide)
    rwa [List.take_zero, List.nil_append, List.drop_of_length_le (by decide), List.append_nil] at hwhole
  · exact ((Compiled.encode_in_window message_compiled [] _).2.1 _ 2 _ hrefused).1

end Codec

end PacketCodec
