import PacketCodec.Bytes

/-!
# Byte sources

A source is the list of what its reads will come to. A read takes the next item; data longer than the
reader's room is served in parts. A source whose list is used up has ended: it reads no bytes.
-/

namespace PacketCodec

inductive SourceItem where
  | data (bs : Bytes)
  /-- A read that is to be tried again. -/
  | interrupted
  | failed (text : String)
  deriving DecidableEq, Repr

/-- What the reads of a source will come to, in order. -/
abbrev Source := List SourceItem

inductive ReadOutcome where
  /-- The bytes read; none at the end. -/
  | data (bs : Bytes)
  | interrupted
  | failed (text : String)
  deriving DecidableEq, Repr

namespace Source

/-- One read into room for `room` bytes, and the source after it. -/
def read (source : Source) (room : Nat) : ReadOutcome × Source :=
  match source with
  | [] => (.data [], [])
  | .interrupted :: rest => (.interrupted, rest)
  | .failed text :: rest => (.failed text, rest)
  | .data bs :: rest =>
    if bs.length ≤ room then (.data bs, rest)
    else (.data (bs.take room), .data (bs.drop room) :: rest)

/-- An upper bound on the number of reads before the end. -/
def remaining : Source → Nat
  | [] => 0
  | .data bs :: rest => bs.length + 1 + remaining rest
  | _ :: rest => 1 + remaining rest

theorem remaining_lt_of_interrupted {source rest : Source} {room : Nat}
    (h : source.read room = (.interrupted, rest)) : rest.remaining < source.remaining := by
  cases source with
  | nil => cases h
  | cons item items =>
    cases item with
    | interrupted => cases h; simp [remaining]
    | failed text => cases h
    | data bs => simp only [read] at h; split at h <;> cases h

theorem remaining_lt_of_data {source rest : Source} {room : Nat} {b : UInt8} {bs : Bytes}
    (h : source.read room = (.data (b :: bs), rest)) : rest.remaining < source.remaining := by
  cases source with
  | nil => cases h
  | cons item items =>
    cases item with
    | interrupted => cases h
    | failed text => cases h
    | data all =>
      simp only [read] at h
      split at h
      · cases h
        simp [remaining]
      · rename_i hroom
        obtain ⟨ht, rfl⟩ := Prod.mk.inj h
        have : (all.take room).length = bs.length + 1 := by
          rw [ReadOutcome.data.inj ht, List.length_cons]
        simp only [remaining, List.length_drop]
        simp only [List.length_take] at this
        omega

end Source

end PacketCodec
