import Tapecode.Bytecode.Listing
import Tapecode.CommandLine
import Tapecode.Diagnostic
import Tapecode.Error
import Tapecode.SystemError

/-!
# Sessions

A session is one invocation of the program on a file. `Session.start` says what to print at once, or
what to run; `Session.ended` says what to print after the run. The exit code is 0 for success, 1 for an
error in the program that was run, 2 for arguments or files that cannot be read, and 3 for an internal
error. A session whose machine cannot be set up breaks off with exit code 101.
-/

namespace Tapecode

/-- What a session prints and the code with which it exits. -/
structure Reply where
  stdout : String := ""
  stderr : String := ""
  exitCode : Nat := 0
  deriving DecidableEq, Repr

namespace Session

/-- How a session goes on once its file has been read. -/
inductive Plan
  /-- There is nothing to run. -/
  | reply (r : Reply)
  /-- Print `warnings` to the error stream and run `code`. -/
  | run (code : Bytecode) (settings : Settings) (warnings : String)

/-- The reply to a request for the version. -/
def version : Reply :=
  { stdout := "bfvm 0.1.0\n" }

/-- The reply to a request for help, in its long form. -/
def help : Reply :=
  { stdout := "\n".intercalate
      ["An optimizing BF bytecode compiler and VM",
       "",
       "Usage: bfvm [OPTIONS] <FILE>",
       "",
       "Arguments:",
       "  <FILE>",
       "          BF source file to run",
       "",
       "Options:",
       "      --eof <EOF>",
       "          What `,` stores once stdin is exhausted",
       "",
       "          Possible values:",
       "          - zero:      Store 0 in the cell",
       "          - minus-one: Store 255 in the cell",
       "          - error:     Stop with an error",
       "",
       "          [default: zero]",
       "",
       "      --tape-size <TAPE_SIZE>",
       "          Number of cells on the tape",
       "",
       "          [default: 30000]",
       "",
       "      --flush-threshold <FLUSH_THRESHOLD>",
       "          Buffer this many output bytes before writing to stdout",
       "",
       "          [default: 50]",
       "",
       "      --max-steps <MAX_STEPS>",
       "          Stop after executing this many bytecode instructions",
       "",
       "      --no-optimize",
       "          Disable the peephole optimizer",
       "",
       "      --dump-ir",
       "          Print the optimized instructions instead of running",
       "",
       "      --dump-bytecode",
       "          Print the bytecode listing instead of running",
       "",
       "      --decompile",
       "          Print equivalent BF source for the optimized program instead of running",
       "",
       "  -W, --warnings",
       "          Report code the optimizer removed as dead",
       "",
       "  -h, --help",
       "          Print help (see a summary with '-h')",
       "",
       "  -V, --version",
       "          Print version",
       ""] }

/-- The reply to arguments that are refused. -/
def usage (e : UsageError) : Reply :=
  { stderr := "error: " ++ e.message ++ "\n", exitCode := 2 }

/-- The reply when the file cannot be read. -/
def unreadable (path : String) (e : SystemError) (styled : Bool) : Reply :=
  let d : Diagnostic :=
    { severity := .error, message := "could not read file: " ++ e.message, path }
  { stderr := d.render [] styled ++ "\n", exitCode := 2 }

/-- The reply to an error. -/
def failure (path : String) (source : List UInt8) (e : Error) (styled : Bool) : Reply :=
  let message := if e.isInternal then "internal error, this is a bug: " ++ e.message else e.message
  let d : Diagnostic := { severity := .error, message, path, position := e.position? }
  { stderr := d.render source styled ++ "\n", exitCode := if e.isInternal then 3 else 1 }

/-- The warnings about a source text as they are printed. -/
def warningText (path : String) (source : List UInt8) (ws : List Warning) (styled : Bool) : String :=
  String.join <| ws.map fun w =>
    let d : Diagnostic :=
      { severity := .warning, message := w.message, path, position := some w.position }
    d.render source styled ++ "\n"

/-- What to do with a source text. -/
def plan (o : Options) (source : List UInt8) (styled : Bool) : Plan :=
  match parse (if o.noOptimize then .off else .all) source with
  | .error e => .reply (failure o.file source (.parse e) styled)
  | .ok (program, ws) =>
    let warnings := if o.warnings then warningText o.file source ws styled else ""
    let printed (text : String) : Plan := .reply { stdout := text ++ "\n", stderr := warnings }
    if o.dumpProgram then printed program.listing
    else if o.decompile then printed program.sourceText
    else
      match program.compile with
      | .error e =>
        let r := failure o.file source (.compile e) styled
        .reply { r with stderr := warnings ++ r.stderr }
      | .ok code =>
        if o.dumpBytecode then printed code.listing else .run code o.settings warnings

/-- What to do once the file has been read, or could not be. -/
def start (o : Options) (contents : Except SystemError (List UInt8)) (styled : Bool) : Plan :=
  match contents with
  | .error e => .reply (unreadable o.file e styled)
  | .ok source => plan o source styled

/-- The reply when the tape or the output buffer is too large to be allocated. -/
def unstarted : Reply :=
  { stderr := "capacity overflow\n", exitCode := 101 }

/-- The reply after a run, apart from what the run itself has written. A fault has no position, so no
line of the source text is shown. -/
def ended (o : Options) (fault : Option Fault) (styled : Bool) : Reply :=
  match fault with
  | none => {}
  | some fault => failure o.file [] (.runtime fault) styled

end Session

end Tapecode
