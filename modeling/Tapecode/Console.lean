import Tapecode.Streams
import Tapecode.Word

/-!
# The console

A `Console` stands between a running program and its streams. It collects output bytes and writes
them in batches, in order: as soon as more than `threshold` bytes are pending, and before every read,
so that whatever the program has printed is visible when it waits for input.

A batch stays pending until all of it has been written. The buffer is made for one byte more than the
threshold at once, and a threshold for which it would be too large gives no console.
-/

namespace Tapecode

/-- Streams with a buffer for the output. -/
structure Console where
  /-- Output is written once more than this many bytes are pending. -/
  threshold : Nat
  /-- The output bytes not yet written, first to last. -/
  pending : Array UInt8 := #[]
  streams : Streams := {}
  deriving DecidableEq, Repr

namespace Console

/-- A console before any output, unless there can be no buffer for `threshold + 1` bytes: nothing that
is larger than the greatest word can be allocated. -/
def create? (threshold : Nat) (streams : Streams) : Option Console :=
  if (threshold : Int) + 1 ≤ Word.greatest then some { threshold, streams } else none

/-- Asks the outside to pass on what has been written. -/
def flushStreams (c : Console) : Except StreamError Unit × Console :=
  let (result, streams) := c.streams.flush
  (result, { c with streams })

/-- Writes all pending bytes and flushes the streams. -/
def flush (c : Console) : Except StreamError Unit × Console :=
  if c.pending.isEmpty then c.flushStreams
  else
    match c.streams.writeAll c.pending.toList with
    | (.ok (), streams) => { c with pending := #[], streams }.flushStreams
    | (.error e, streams) => (.error e, { c with streams })

/-- Adds an output byte. -/
def push (c : Console) (b : UInt8) : Except StreamError Unit × Console :=
  let c := { c with pending := c.pending.push b }
  if c.threshold < c.pending.size then c.flush else (.ok (), c)

/-- The next input byte, or `none` at the end of the input. -/
def readByte (c : Console) : Except StreamError (Option UInt8) × Console :=
  match c.flush with
  | (.error e, c) => (.error e, c)
  | (.ok (), c) =>
    let (result, streams) := c.streams.readByte
    (result, { c with streams })

end Console

end Tapecode
