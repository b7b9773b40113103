import PacketCodec.Proofs.Codec.Raising
import PacketCodec.Proofs.Except

/-!
# Kinds of errors

An operation that chooses the kinds of its errors comes out as the one that fails with errors of its own type, which
are then of one kind, or of two where bytes may be missing. So every choice is the right one, in the helpers that
operations have in common as well, and putting the names of fields to errors keeps their kinds.
-/

namespace PacketCodec

namespace Raising

open Error

section Read

variable (buf : Bytes) (offset : Nat)

@[simp] theorem takeBytes_eq (count : Nat) :
    takeBytes buf offset count = (PacketCodec.takeBytes buf offset count).mapError ofRead := by
  simp only [takeBytes, PacketCodec.takeBytes]
  cases buf.slice? offset count <;> rfl

@[simp] theorem takeCounted_eq (count : Nat) :
    takeCounted buf offset count = (PacketCodec.takeCounted buf offset count).mapError ofRead := by
  simp only [takeCounted, PacketCodec.takeCounted, takeBytes_eq]
  split <;> rfl

@[simp] theorem readByte_eq :
    readByte buf offset = (Varint.readByte buf offset).mapError ofRead := by
  simp only [readByte, Varint.readByte]
  cases buf[offset]? <;> rfl

@[simp] theorem readGroups_eq (left : Nat) :
    readGroups buf left offset = (Varint.readGroups buf left offset).mapError ofRead := by
  induction left generalizing offset with
  | zero => rfl
  | succ left ih =>
    simp only [readGroups, Varint.readGroups, Except.mapError_bind, readByte_eq]
    congr
    funext b
    split
    · rfl
    · simp only [ih, Except.mapError_bind]
      rfl

@[simp] theorem readScalar_eq (s : Scalar) :
    readScalar s buf offset = (s.read buf offset).mapError ofRead := by
  cases s with
  | void => rfl
  | varint =>
    simp only [readScalar, Scalar.read, Varint.read, readGroups_eq, bind_assoc, Except.mapError_bind]
    rfl
  | _ =>
    simp only [readScalar, Scalar.read, takeBytes_eq, Except.mapError_bind]
    rfl

@[simp] theorem lengthOf_eq (value : Value) :
    lengthOf value = (PacketCodec.lengthOf value).mapError ofRead := by
  simp only [lengthOf, PacketCodec.lengthOf]
  cases value.asNat? <;> rfl

@[simp] theorem guardZeroWidth_eq (count remaining : Nat) (item : Decoded) :
    guardZeroWidth count remaining item =
      (PacketCodec.guardZeroWidth count remaining item).mapError ofRead := by
  simp only [guardZeroWidth, PacketCodec.guardZeroWidth]
  split <;> rfl

@[simp] theorem readItems_eq (read : Nat → Except ReadError Decoded) (count : Nat) :
    readItems (fun place => (read place).mapError ofRead) count offset =
      (PacketCodec.readItems read count offset).mapError ofRead := by
  induction count generalizing offset with
  | zero => rfl
  | succ count ih =>
    simp only [readItems, PacketCodec.readItems, ih, Except.mapError_bind]
    rfl

end Read

@[simp] theorem selectKey_eq (on : Discriminant) (scope : Scope) (fail : DiscriminantFault → Error) :
    selectKey on scope fail = (on.key scope).mapError fail := by
  cases on with
  | constant v =>
    simp only [selectKey, Discriminant.key, Discriminant.value, bind, Except.bind]
    cases v.branchKey? <;> rfl
  | field path =>
    simp only [selectKey, Discriminant.key, Discriminant.value]
    cases scope.lookup path with
    | none => rfl
    | some v =>
      simp only [bind, Except.bind]
      cases v.branchKey? <;> rfl

theorem expecting_eq {α : Type} (outcome : Except EncodeFault α) :
    expecting outcome = (checked outcome).mapError Error.encode := by
  cases outcome <;> rfl

section Sizes

variable (measure : Value → Except EncodeError Nat) (items : List Value)

theorem sumSizes_eq : sumSizes (fun item => (measure item).mapError Error.encode) items =
    (PacketCodec.sumSizes measure items).mapError Error.encode := by
  induction items with
  | nil => rfl
  | cons item rest ih =>
    simp only [sumSizes, PacketCodec.sumSizes, ih, Except.mapError_bind]
    rfl

theorem checkItems_eq : checkItems (fun item => (measure item).mapError Error.encode) items =
    (PacketCodec.checkItems measure items).mapError Error.encode := by
  induction items with
  | nil => rfl
  | cons item rest ih => simp only [checkItems, PacketCodec.checkItems, ih, Except.mapError_bind]

theorem itemsSize_eq (fixed : Option Nat) :
    itemsSize fixed (fun item => (measure item).mapError Error.encode) items =
      (PacketCodec.itemsSize fixed measure items).mapError Error.encode := by
  cases fixed with
  | none => exact sumSizes_eq measure items
  | some each =>
    simp only [itemsSize, PacketCodec.itemsSize, checkItems_eq, Except.mapError_bind]
    rfl

end Sizes

section Write

theorem check_eq {α : Type} (outcome : Except EncodeFault α) :
    ExceptT.adapt Error.encode (PacketCodec.Writing.check outcome) =
      (liftM (expecting outcome) : Writing α) := by
  cases outcome <;> rfl

theorem put_eq (bs : Bytes) (offset : Nat) :
    put bs offset = ExceptT.adapt Error.encode (PacketCodec.Writing.put bs offset) := by
  apply ExceptT.ext
  funext dest
  show (put bs offset).run.run dest =
    (((PacketCodec.Writing.put bs offset).run.run dest).1.mapError Error.encode,
      ((PacketCodec.Writing.put bs offset).run.run dest).2)
  change (ite _ _ _ : Writing Nat).run.run dest =
    (((ite _ _ _ : PacketCodec.Writing Nat).run.run dest).1.mapError Error.encode,
      ((ite _ _ _ : PacketCodec.Writing Nat).run.run dest).2)
  by_cases h : offset + bs.length ≤ dest.length
  · rw [if_pos h, if_pos h]
    rfl
  · rw [if_neg h, if_neg h]
    rfl

theorem putEach_eq (pieces : List Bytes) (offset : Nat) :
    putEach pieces offset = ExceptT.adapt Error.encode (PacketCodec.Writing.putEach pieces offset) := by
  induction pieces generalizing offset with
  | nil => rfl
  | cons bs rest ih =>
    simp only [putEach, PacketCodec.Writing.putEach, ExceptT.adapt_bind, put_eq, ih]

theorem writeItems_eq {raising : Value → Nat → Writing Nat}
    {write : Value → Nat → PacketCodec.Writing Nat}
    (h : ∀ value offset, raising value offset = ExceptT.adapt Error.encode (write value offset))
    (values : List Value) (offset : Nat) : writeItems raising values offset =
      ExceptT.adapt Error.encode (PacketCodec.Writing.items write values offset) := by
  induction values generalizing offset with
  | nil => rfl
  | cons value rest ih =>
    simp only [writeItems, PacketCodec.Writing.items, ExceptT.adapt_bind, h, ih]

theorem writeWithin_eq {α : Type} (name : String) (w : PacketCodec.Writing α) :
    writeWithin name (ExceptT.adapt Error.encode w) =
      ExceptT.adapt Error.encode (PacketCodec.Writing.within name w) := by
  apply ExceptT.ext
  funext dest
  show (writeWithin name (ExceptT.adapt Error.encode w)).run.run dest =
    (ExceptT.adapt Error.encode (PacketCodec.Writing.within name w)).run.run dest
  have hrun : (writeWithin name (ExceptT.adapt Error.encode w)).run.run dest =
      (((w.run.run dest).1.mapError Error.encode).mapError (inField name), (w.run.run dest).2) := rfl
  have hwithin : (PacketCodec.Writing.within name w).run.run dest =
      ((w.run.run dest).1.mapError (Located.within name), (w.run.run dest).2) := rfl
  rw [hrun, ExceptT.run_run_adapt, hwithin]
  cases (w.run.run dest).1 <;> rfl

end Write

end Raising

namespace Codec

open Raising Error

theorem decodeBranchRaising_eq (branches : List (String × Codec)) (key : String) (buf : Bytes)
    (scope : Scope) (offset : Nat) : decodeBranchRaising branches key buf scope offset =
      (Table.get? branches key).map fun c => c.decodeRaising buf scope offset :=
  Table.eq_map_get? (fun rest => decodeBranchRaising rest key buf scope offset) rfl
    (fun _ _ _ => rfl) branches

theorem decodeRaising_switch (on : Discriminant) (branches : List (String × Codec)) (default : Codec)
    (size : Option Nat) (buf : Bytes) (scope : Scope) (offset : Nat) :
    (Codec.switch on branches default size).decodeRaising buf scope offset = (do
      let key ← selectKey on scope fun fault => ofDecodeFault (.discriminant fault)
      (alternative branches default key).decodeRaising buf scope offset) := by
  rw [decodeRaising]
  congr 1
  funext key
  simp only [decodeBranchRaising_eq, alternative]
  cases Table.get? branches key <;> rfl

theorem decodeFieldsRaising_eq {fields : List (String × Codec)} {buf : Bytes}
    (ih : ∀ field ∈ fields, ∀ scope offset, field.2.decodeRaising buf scope offset =
      (field.2.decode buf scope offset).mapError ofRead) (scope : Scope) (offset : Nat)
    (record : Record) : decodeFieldsRaising fields buf scope offset record =
      (decodeFields fields buf scope offset record).mapError ofRead := by
  induction fields generalizing offset record with
  | nil => rfl
  | cons field rest ihRest =>
    obtain ⟨name, c⟩ := field
    have hfield := ih (name, c) List.mem_cons_self
    have hrest := ihRest fun field hf => ih field (List.mem_cons_of_mem _ hf)
    have hwithin (x : Except ReadError Decoded) : (x.mapError ofRead).mapError (inField name) =
        (x.mapError (ReadError.within name)).mapError ofRead := by
      cases x with
      | ok d => rfl
      | error e => exact congrArg Except.error (inField_ofRead name e)
    simp only [decodeFieldsRaising, decodeFields, Except.mapError_bind, hfield, hrest, hwithin]
    rfl

/-- What decoding raises is a partial read where bytes are missing, and a fault of decoding otherwise. -/
theorem decodeRaising_eq (c : Codec) (buf : Bytes) (scope : Scope) (offset : Nat) :
    c.decodeRaising buf scope offset = (c.decode buf scope offset).mapError ofRead := by
  induction c generalizing scope offset with
  | scalar p =>
    simp only [decodeRaising, decode, readScalar_eq, Except.mapError_bind]
    rfl
  | text count ih =>
    simp only [decodeRaising, decode, Except.mapError_bind, ih, lengthOf_eq, takeCounted_eq]
    congr
    funext announced
    congr
    funext length
    congr
    funext bs
    cases Utf8.decode bs <;> rfl
  | block length =>
    simp only [decodeRaising, decode, Except.mapError_bind, takeCounted_eq]
    rfl
  | countedBlock count ih =>
    simp only [decodeRaising, decode, Except.mapError_bind, ih, lengthOf_eq, takeCounted_eq]
    rfl
  | option inner ih =>
    simp only [decodeRaising, decode, Except.mapError_bind, takeBytes_eq, ih]
    congr
    funext presence
    split
    · rfl
    · simp only [Except.mapError_bind]
      rfl
  | array element length ih =>
    simp only [decodeRaising, decode, Except.mapError_bind, ih, readItems_eq]
    rfl
  | countedArray count element ihCount ihElement =>
    have hguard (length remaining : Nat) (scope : Scope) (place : Nat) :
        ((element.decode buf scope place).mapError ofRead >>= Raising.guardZeroWidth length remaining) =
          (element.decode buf scope place >>= guardZeroWidth length remaining).mapError ofRead := by
      rw [Except.mapError_bind]
      congr
      funext item
      exact guardZeroWidth_eq length remaining item
    simp only [decodeRaising, decode, Except.mapError_bind]
    simp only [ihCount, ihElement, hguard, lengthOf_eq, readItems_eq]
    rfl
  | container fields ih =>
    simp only [decodeRaising, decode, Except.mapError_bind, decodeFieldsRaising_eq ih]
    rfl
  | switch on branches default size ihBranches ihDefault =>
    rw [decode_switch, decodeRaising_switch, selectKey_eq]
    cases on.key scope with
    | error fault => rfl
    | ok key =>
      exact alternative_of_forall
        (P := fun d => d.decodeRaising buf scope offset = (d.decode buf scope offset).mapError ofRead)
        (fun branch hb => ihBranches branch hb scope offset) (ihDefault scope offset) key

section Measure

variable (scope : Scope)

theorem measureBranchRaising_eq (branches : List (String × Codec)) (key : String) (value : Value) :
    measureBranchRaising branches key scope value =
      (Table.get? branches key).map fun c => c.measureRaising scope value :=
  Table.eq_map_get? (fun rest => measureBranchRaising rest key scope value) rfl (fun _ _ _ => rfl) branches

theorem measureRaising_switch (on : Discriminant) (branches : List (String × Codec)) (default : Codec)
    (size : Option Nat) (value : Value) :
    (Codec.switch on branches default size).measureRaising scope value = (do
      let key ← selectKey on scope fun fault => ofEncodeFault (.discriminant fault)
      let n ← (alternative branches default key).measureRaising scope value
      return size.getD n) := by
  rw [measureRaising]
  congr 1
  funext key
  simp only [measureBranchRaising_eq, alternative]
  cases Table.get? branches key <;> rfl

theorem measureFieldsRaising_eq {fields : List (String × Codec)}
    (ih : ∀ field ∈ fields, ∀ scope value, field.2.measureRaising scope value =
      (field.2.measure scope value).mapError Error.encode) (record : Record) :
    measureFieldsRaising fields scope record =
      (measureFields fields scope record).mapError Error.encode := by
  induction fields with
  | nil => rfl
  | cons field rest ihRest =>
    obtain ⟨name, c⟩ := field
    have hfield := ih (name, c) List.mem_cons_self
    have hrest := ihRest fun field hf => ih field (List.mem_cons_of_mem _ hf)
    have hwithin (x : Except EncodeError Nat) : (x.mapError Error.encode).mapError (inField name) =
        (x.mapError (Located.within name)).mapError Error.encode := by
      cases x <;> rfl
    simp only [measureFieldsRaising, measureFields, Except.mapError_bind, hfield, hrest, hwithin]
    rfl

theorem measureRaising_eq (c : Codec) (value : Value) :
    c.measureRaising scope value = (c.measure scope value).mapError Error.encode := by
  induction c generalizing scope value with
  | scalar p => simp only [measureRaising, measure, expecting_eq]
  | text count ih =>
    simp only [measureRaising, measure, Except.mapError_bind, expecting_eq, ih]
    rfl
  | block length =>
    simp only [measureRaising, measure, Except.mapError_bind, expecting_eq]
    rfl
  | countedBlock count ih =>
    simp only [measureRaising, measure, Except.mapError_bind, expecting_eq, ih]
    rfl
  | option inner ih =>
    cases value with
    | null => rfl
    | _ =>
      simp only [measureRaising, measure, Except.mapError_bind, ih]
      rfl
  | array element length ih =>
    simp only [measureRaising, measure, Except.mapError_bind, expecting_eq, ih, itemsSize_eq]
  | countedArray count element ihCount ihElement =>
    simp only [measureRaising, measure, Except.mapError_bind, expecting_eq, ihCount, ihElement,
      itemsSize_eq]
    rfl
  | container fields ih =>
    simp only [measureRaising, measure, Except.mapError_bind, expecting_eq, measureFieldsRaising_eq _ ih]
  | switch on branches default size ihBranches ihDefault =>
    rw [measure_switch, measureRaising_switch, selectKey_eq]
    cases on.key scope with
    | error fault => rfl
    | ok key =>
      have halternative := alternative_of_forall
        (P := fun d => d.measureRaising scope value = (d.measure scope value).mapError Error.encode)
        (fun branch hb => ihBranches branch hb scope value) (ihDefault scope value) key
      show ((alternative branches default key).measureRaising scope value >>=
          fun n => pure (size.getD n)) =
        ((alternative branches default key).measure scope value >>=
          fun n => pure (size.getD n)).mapError Error.encode
      rw [Except.mapError_bind, halternative]
      rfl

end Measure

section Write

variable (scope : Scope)

theorem writeBranchRaising_eq (branches : List (String × Codec)) (key : String) (value : Value)
    (offset : Nat) : writeBranchRaising branches key scope value offset =
      (Table.get? branches key).map fun c => c.writeRaising scope value offset :=
  Table.eq_map_get? (fun rest => writeBranchRaising rest key scope value offset) rfl
    (fun _ _ _ => rfl) branches

theorem writeRaising_switch (on : Discriminant) (branches : List (String × Codec)) (default : Codec)
    (size : Option Nat) (value : Value) (offset : Nat) :
    (Codec.switch on branches default size).writeRaising scope value offset = (do
      let key ← selectKey on scope fun fault => ofEncodeFault (.discriminant fault)
      (alternative branches default key).writeRaising scope value offset) := by
  rw [writeRaising]
  congr 1
  funext key
  simp only [writeBranchRaising_eq, alternative]
  cases Table.get? branches key <;> rfl

theorem writeFieldsRaising_eq {fields : List (String × Codec)}
    (ih : ∀ field ∈ fields, ∀ scope value offset, field.2.writeRaising scope value offset =
      ExceptT.adapt Error.encode (field.2.write scope value offset)) (record : Record) (offset : Nat) :
    writeFieldsRaising fields scope record offset =
      ExceptT.adapt Error.encode (writeFields fields scope record offset) := by
  induction fields generalizing offset with
  | nil => rfl
  | cons field rest ihRest =>
    obtain ⟨name, c⟩ := field
    have hfield := ih (name, c) List.mem_cons_self
    have hrest := ihRest fun field hf => ih field (List.mem_cons_of_mem _ hf)
    simp only [writeFieldsRaising, writeFields, ExceptT.adapt_bind, hfield, hrest, writeWithin_eq]

theorem writeRaising_eq (c : Codec) (value : Value) (offset : Nat) :
    c.writeRaising scope value offset = ExceptT.adapt Error.encode (c.write scope value offset) := by
  induction c generalizing scope value offset with
  | scalar p => simp only [writeRaising, write, ExceptT.adapt_bind, check_eq, putEach_eq]
  | text count ih =>
    simp only [writeRaising, write, ExceptT.adapt_bind, check_eq, ih, put_eq]
  | block length => simp only [writeRaising, write, ExceptT.adapt_bind, check_eq, put_eq]
  | countedBlock count ih =>
    simp only [writeRaising, write, ExceptT.adapt_bind, check_eq, ih, put_eq]
  | option inner ih =>
    cases value with
    | null => simp only [writeRaising, write, put_eq]
    | _ => simp only [writeRaising, write, ExceptT.adapt_bind, put_eq, ih]
  | array element length ih =>
    simp only [writeRaising, write, ExceptT.adapt_bind, check_eq,
      writeItems_eq (ih scope)]
  | countedArray count element ihCount ihElement =>
    simp only [writeRaising, write, ExceptT.adapt_bind, check_eq, ihCount,
      writeItems_eq (ihElement scope)]
  | container fields ih =>
    simp only [writeRaising, write, ExceptT.adapt_bind, check_eq, writeFieldsRaising_eq _ ih]
  | switch on branches default size ihBranches ihDefault =>
    rw [write_switch, writeRaising_switch, selectKey_eq]
    cases on.key scope with
    | error fault => rfl
    | ok key =>
      exact alternative_of_forall
        (P := fun d => d.writeRaising scope value offset =
          ExceptT.adapt Error.encode (d.write scope value offset))
        (fun branch hb => ihBranches branch hb scope value offset) (ihDefault scope value offset) key

end Write

end Codec

end PacketCodec
