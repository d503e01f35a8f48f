import Tapecode.Session

/-!
# The program

Reads the arguments and the file, and runs the machine against the standard streams. Before the machine
reads, everything it has printed is passed on, and only then is a byte taken from the input.
-/

namespace Tapecode

/-- The system's account of a failed call. -/
def SystemError.ofFailure : IO.Error → SystemError
  | .noFileOrDirectory _ code details => ofCode code details
  | .inappropriateType _ code details => ofCode code details
  | .permissionDenied _ code details => ofCode code details
  | .invalidArgument _ code details => ofCode code details
  | .resourceExhausted _ code details => ofCode code details
  | .resourceVanished code details => ofCode code details
  | .hardwareFault code details => ofCode code details
  | .otherError code details => ofCode code details
  | e => ⟨toString e, 5⟩

/-- Whether to style what is printed: as the environment asks, and else only on a terminal. -/
def wantsStyle : IO Bool := do
  let forced ← IO.getEnv "CLICOLOR_FORCE"
  if forced.isSome && forced != some "0" then return true
  if (← IO.getEnv "NO_COLOR").isSome then return false
  if (← IO.getEnv "CLICOLOR") == some "0" then return false
  (← IO.getStdout).isTty

/-- Prints a reply and gives its exit code. -/
def Reply.print (r : Reply) : IO UInt32 := do
  (← IO.getStdout).putStr r.stdout
  (← IO.getStdout).flush
  (← IO.getStderr).putStr r.stderr
  return r.exitCode.toUInt32

namespace Machine

/-- Passes on the bytes that the machine has written and forgets its calls. -/
def deliver (m : Machine) : IO Machine := do
  let out ← IO.getStdout
  let bytes := m.console.streams.accepted
  unless bytes.isEmpty do
    out.write ⟨bytes.toArray⟩
    out.flush
  return { m with console.streams.events := #[] }

/-- Whether the next instruction reads and no reply is at hand. -/
def awaitsInput (m : Machine) (code : Array Word) : Bool :=
  match fetch code m.counter with
  | some (.input _) => m.console.streams.reads.isEmpty
  | _ => false

/-- Takes one byte from the standard input as the next reply. -/
def supply (m : Machine) : IO Machine := do
  let m ← { m with console := m.console.flush.2 }.deliver
  let bytes ← (← IO.getStdin).read 1
  let reply : ReadReply := if h : 0 < bytes.size then .byte bytes[0] else .endOfInput
  return { m with console.streams.reads := [reply] }

/-- Runs a machine to the end. -/
partial def drive (m : Machine) (code : Array Word) (settings : Settings) : IO (Option Fault) := do
  let m ← if m.awaitsInput code then m.supply else pure m
  match m.step code settings with
  | .running m =>
    let m ← if m.console.streams.events.isEmpty then pure m else m.deliver
    m.drive code settings
  | .halted fault m =>
    let (fault, m) := m.finish fault
    discard m.deliver
    return fault

end Machine

/-- Runs bytecode against the standard streams, from the machine that has been set up. -/
def runStandard (m : Machine) (code : Bytecode) (settings : Settings) : IO (Option Fault) :=
  try m.drive code.toArray settings
  catch e => return some (.io (.system (SystemError.ofFailure e).message))

/-- The code with which an invocation exits. -/
def invoke (args : List String) : IO UInt32 := do
  match CommandLine.parse args with
  | .error e => (Session.usage e).print
  | .ok .version => Session.version.print
  | .ok .help => Session.help.print
  | .ok (.run o) =>
    let styled ← wantsStyle
    let contents := match ← (IO.FS.readBinFile o.file).toBaseIO with
      | .ok bytes => .ok bytes.toList
      | .error e => .error (SystemError.ofFailure e)
    match Session.start o contents styled with
    | .reply r => r.print
    | .run code settings warnings =>
      (← IO.getStderr).putStr warnings
      match Machine.load? settings {} with
      | none => Session.unstarted.print
      | some m =>
        let fault ← runStandard m code settings
        (Session.ended o fault styled).print

end Tapecode

/-- The entry point. -/
def main (args : List String) : IO UInt32 :=
  Tapecode.invoke args
