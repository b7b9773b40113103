import PacketCodec.Error

/-!
# Byte sinks

A sink is what it has accepted so far and the list of what its writes and flushes will come to. A sink
whose lists are used up accepts everything. Writing all of a sequence repeats interrupted writes and
goes on behind accepted bytes until nothing is left.
-/

namespace PacketCodec

/-- What one write to a sink comes to. -/
inductive WriteItem where
  /-- At most `count` bytes are accepted. -/
  | accept (count : Nat)
  /-- A write that is to be tried again. -/
  | interrupted
  | failed (text : String)
  deriving DecidableEq, Repr

structure Sink where
  /-- All bytes accepted so far. -/
  content : Bytes := []
  writes : List WriteItem := []
  /-- The errors of the next flushes, none where a flush succeeds. -/
  flushes : List (Option String) := []

namespace Sink

/-- What is accepted of a sequence, the writes that are left, and how writing all of it ends. -/
def accept : List WriteItem → Bytes → Bytes × List WriteItem × Except IoFault Unit
  | writes, [] => ([], writes, .ok ())
  | [], bs => (bs, [], .ok ())
  | .interrupted :: writes, bs => accept writes bs
  | .failed text :: writes, _ => ([], writes, .error (.failed text))
  | .accept 0 :: writes, _ => ([], writes, .error .writeZero)
  | .accept (count + 1) :: writes, bs =>
    let (accepted, rest) := accept writes (bs.drop (count + 1))
    (bs.take (count + 1) ++ accepted, rest)

def writeAll (sink : Sink) (bs : Bytes) : Sink × Except IoFault Unit :=
  let (accepted, writes, outcome) := accept sink.writes bs
  ({ sink with content := sink.content ++ accepted, writes }, outcome)

def flush (sink : Sink) : Sink × Except IoFault Unit :=
  match sink.flushes with
  | [] => (sink, .ok ())
  | none :: flushes => ({ sink with flushes }, .ok ())
  | some text :: flushes => ({ sink with flushes }, .error (.failed text))

end Sink

end PacketCodec
