/-!
# Streams

A run talks to the outside by three kinds of call: it reads a byte, writes some bytes, and flushes
what it has written. `Streams` holds the replies that such calls will get and the calls made so far.
A reply list that is used up goes on with the plain reply: reads find the end of the input, and writes
and flushes succeed.

A read or a write that was interrupted is made again, and a write that took only some of its bytes is
followed by a write of the rest, so that a `writeAll` either delivers everything or fails.
-/

namespace Tapecode

/-- What a read call answers. -/
inductive ReadReply
  | byte (value : UInt8)
  | endOfInput
  | interrupted
  | failed
  deriving DecidableEq, Repr

/-- What a write call answers. -/
inductive WriteReply
  /-- All bytes are accepted. -/
  | all
  /-- At most this many bytes are accepted. -/
  | atMost (count : Nat)
  | interrupted
  | failed
  deriving DecidableEq, Repr

/-- What a flush call answers. -/
inductive FlushReply
  | done
  | failed
  deriving DecidableEq, Repr

/-- What came of a write call. -/
inductive WriteResult
  /-- So many bytes were accepted. -/
  | accepted (count : Nat)
  | interrupted
  | failed
  deriving DecidableEq, Repr

/-- A call on the streams and its reply. -/
inductive Event
  | read (reply : ReadReply)
  | write (offered : List UInt8) (result : WriteResult)
  | flush (reply : FlushReply)
  deriving DecidableEq, Repr

/-- The bytes that the outside took in an event. -/
def Event.accepted : Event → List UInt8
  | write offered (.accepted count) => offered.take count
  | write _ _ | read _ | flush _ => []

/-- Why a stream call failed for good. -/
inductive StreamError
  | readFailed
  | writeFailed
  | flushFailed
  /-- A write accepted no byte at all. -/
  | nothingAccepted
  /-- A failure that the system describes in its own words. -/
  | system (text : String)
  deriving DecidableEq, Repr

/-- An error as it is printed. -/
def StreamError.message : StreamError → String
  | readFailed => "read failed"
  | writeFailed => "write failed"
  | flushFailed => "flush failed"
  | nothingAccepted => "failed to write whole buffer"
  | system text => text

/-- The replies to come and the calls made so far. -/
structure Streams where
  reads : List ReadReply := []
  writes : List WriteReply := []
  flushes : List FlushReply := []
  /-- The calls so far, first to last. -/
  events : Array Event := #[]
  deriving DecidableEq, Repr

/-- What came of calls of one kind: their result, the replies left, and the calls made. -/
structure Served (α ρ : Type) where
  result : Except StreamError α
  rest : List ρ
  events : List Event

namespace Streams

/-- Reads until a call is not interrupted; the result is `none` at the end of the input. -/
def serveRead : List ReadReply → Served (Option UInt8) ReadReply
  | [] => ⟨.ok none, [], [.read .endOfInput]⟩
  | .byte value :: rest => ⟨.ok (some value), rest, [.read (.byte value)]⟩
  | .endOfInput :: rest => ⟨.ok none, rest, [.read .endOfInput]⟩
  | .failed :: rest => ⟨.error .readFailed, rest, [.read .failed]⟩
  | .interrupted :: rest =>
    let later := serveRead rest
    { later with events := .read .interrupted :: later.events }

/-- Writes until every byte has been accepted or a write fails. -/
def serveWrite : List WriteReply → List UInt8 → Served Unit WriteReply
  | replies, [] => ⟨.ok (), replies, []⟩
  | [], bytes => ⟨.ok (), [], [.write bytes (.accepted bytes.length)]⟩
  | .all :: rest, bytes => ⟨.ok (), rest, [.write bytes (.accepted bytes.length)]⟩
  | .failed :: rest, bytes => ⟨.error .writeFailed, rest, [.write bytes .failed]⟩
  | .interrupted :: rest, bytes =>
    let later := serveWrite rest bytes
    { later with events := .write bytes .interrupted :: later.events }
  | .atMost 0 :: rest, bytes => ⟨.error .nothingAccepted, rest, [.write bytes (.accepted 0)]⟩
  | .atMost count :: rest, bytes =>
    let later := serveWrite rest (bytes.drop count)
    { later with events := .write bytes (.accepted (min count bytes.length)) :: later.events }

/-- The next input byte, or `none` at the end of the input. -/
def readByte (s : Streams) : Except StreamError (Option UInt8) × Streams :=
  let served := serveRead s.reads
  (served.result, { s with reads := served.rest, events := s.events ++ served.events })

/-- Delivers all of `bytes`. -/
def writeAll (s : Streams) (bytes : List UInt8) : Except StreamError Unit × Streams :=
  let served := serveWrite s.writes bytes
  (served.result, { s with writes := served.rest, events := s.events ++ served.events })

/-- Asks the outside to pass on what has been written. -/
def flush (s : Streams) : Except StreamError Unit × Streams :=
  match s.flushes with
  | [] => (.ok (), { s with events := s.events.push (.flush .done) })
  | .done :: rest => (.ok (), { s with flushes := rest, events := s.events.push (.flush .done) })
  | .failed :: rest =>
    (.error .flushFailed, { s with flushes := rest, events := s.events.push (.flush .failed) })

/-- Every byte that the outside has accepted, in order. -/
def accepted (s : Streams) : List UInt8 :=
  s.events.toList.flatMap Event.accepted

end Streams

end Tapecode
