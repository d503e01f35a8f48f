import Tapecode.Machine

/-!
# The command line

Arguments are read from left to right, and the first fault, or the first request for the version or
for help, decides. An option takes its value from the same argument after an equals sign, or else from
the next argument, which must not look like an option. No option, switch or file may be given twice.
After a double hyphen every argument is a file.
-/

namespace Tapecode

/-- What one invocation of the program is asked to do with a file. -/
structure Options where
  file : String
  settings : Settings := {}
  /-- Compile without any simplification. -/
  noOptimize : Bool := false
  /-- Print the program instead of running it. -/
  dumpProgram : Bool := false
  /-- Print the bytecode instead of running it. -/
  dumpBytecode : Bool := false
  /-- Print a source text for the program instead of running it. -/
  decompile : Bool := false
  /-- Report loops that were dropped. -/
  warnings : Bool := false
  deriving DecidableEq, Repr

/-- What an invocation of the program is asked for. -/
inductive Request
  | run (options : Options)
  | version
  | help
  deriving DecidableEq, Repr

/-- Why the arguments of an invocation are refused. -/
inductive UsageError
  | unknownOption (name : String)
  | givenTwice (name : String)
  | missingValue (name : String)
  | invalidValue (name value : String)
  | unexpectedValue (name : String)
  | unexpectedFile (file : String)
  | emptyFile
  | missingFile
  deriving DecidableEq, Repr

/-- An error as it is printed. -/
def UsageError.message : UsageError → String
  | unknownOption name => "unknown option '" ++ name ++ "'"
  | givenTwice name => "option '" ++ name ++ "' is given twice"
  | missingValue name => "option '" ++ name ++ "' needs a value"
  | invalidValue name value => "invalid value '" ++ value ++ "' for option '" ++ name ++ "'"
  | unexpectedValue name => "option '" ++ name ++ "' takes no value"
  | unexpectedFile file => "unexpected argument '" ++ file ++ "'"
  | emptyFile => "the file name is empty"
  | missingFile => "no file is given"

namespace CommandLine

/-- Options without a value. -/
inductive Switch
  | noOptimize
  | dumpProgram
  | dumpBytecode
  | decompile
  | warnings
  deriving DecidableEq, Repr

/-- Options with a value. -/
inductive Setting
  | eof
  | tapeSize
  | flushThreshold
  | maxSteps
  deriving DecidableEq, Repr

/-- Everything that may follow a double hyphen. -/
inductive Keyword
  | switch (s : Switch)
  | setting (s : Setting)
  | version
  | help
  deriving DecidableEq, Repr

/-- Every keyword with its name. -/
def keywords : List (String × Keyword) :=
  [("no-optimize", .switch .noOptimize),
   ("dump-ir", .switch .dumpProgram),
   ("dump-bytecode", .switch .dumpBytecode),
   ("decompile", .switch .decompile),
   ("warnings", .switch .warnings),
   ("eof", .setting .eof),
   ("tape-size", .setting .tapeSize),
   ("flush-threshold", .setting .flushThreshold),
   ("max-steps", .setting .maxSteps),
   ("version", .version),
   ("help", .help)]

/-- The keywords that have a letter of their own. -/
def letters : List (Char × Keyword) :=
  [('W', .switch .warnings), ('V', .version), ('h', .help)]

/-- What has been given so far. -/
structure Given where
  file : Option String := none
  switches : List Switch := []
  eof : Option EofPolicy := none
  tapeSize : Option Nat := none
  flushThreshold : Option Nat := none
  maxSteps : Option Nat := none

/-! ## Values -/

/-- The value of a text of decimal digits. -/
def digits? : List Char → Option Nat
  | [] => none
  | cs =>
    if cs.all Char.isDigit then some (cs.foldl (fun n c => 10 * n + (c.toNat - '0'.toNat)) 0)
    else none

/-- The least number that takes more than 64 bits. -/
def numberBound : Nat := 18446744073709551616

/-- A decimal number of at most 64 bits. A plus sign may stand before it. -/
def number? (value : String) : Option Nat :=
  let cs :=
    match value.toList with
    | '+' :: cs => cs
    | cs => cs
  (digits? cs).filter (· < numberBound)

/-- The ways to say what reading past the end of the input does. -/
def eof? (value : String) : Option EofPolicy :=
  match value with
  | "zero" => some (.sentinel 0)
  | "minus-one" => some (.sentinel 255)
  | "error" => some .fail
  | _ => none

/-! ## Single options -/

/-- Keeps a value that has been read, if it is valid and the first of its kind. -/
def once (name text : String) {α : Type} (old new : Option α) : Except UsageError (Option α) :=
  match new, old with
  | none, _ => .error (.invalidValue name text)
  | some _, some _ => .error (.givenTwice name)
  | some v, none => .ok (some v)

/-- Takes an option with its value. -/
def Given.set (g : Given) (s : Setting) (name value : String) : Except UsageError Given :=
  match s with
  | .eof => (once name value g.eof (eof? value)).map fun v => { g with eof := v }
  | .tapeSize => (once name value g.tapeSize (number? value)).map fun v => { g with tapeSize := v }
  | .flushThreshold =>
    (once name value g.flushThreshold (number? value)).map fun v => { g with flushThreshold := v }
  | .maxSteps => (once name value g.maxSteps (number? value)).map fun v => { g with maxSteps := v }

/-- Takes a switch. -/
def Given.turnOn (g : Given) (s : Switch) (name : String) : Except UsageError Given :=
  if s ∈ g.switches then .error (.givenTwice name) else .ok { g with switches := s :: g.switches }

/-- Takes a file. -/
def Given.setFile (g : Given) (file : String) : Except UsageError Given :=
  if file = "" then .error .emptyFile
  else if g.file.isSome then .error (.unexpectedFile file)
  else .ok { g with file := some file }

/-- The request of an invocation all of whose arguments have been taken. -/
def Given.request (g : Given) : Except UsageError Request :=
  match g.file with
  | none => .error .missingFile
  | some file =>
    let plain : Settings := {}
    .ok <| .run
      { file
        settings :=
          { tapeSize := g.tapeSize.getD plain.tapeSize
            flushThreshold := g.flushThreshold.getD plain.flushThreshold
            eof := g.eof.getD plain.eof
            stepLimit := g.maxSteps }
        noOptimize := .noOptimize ∈ g.switches
        dumpProgram := .dumpProgram ∈ g.switches
        dumpBytecode := .dumpBytecode ∈ g.switches
        decompile := .decompile ∈ g.switches
        warnings := .warnings ∈ g.switches }

/-! ## Whole command lines -/

/-- What the letters after a single hyphen ask for: a request at once, or what is given after them. -/
def readLetters (g : Given) : List Char → Except UsageError (Request ⊕ Given)
  | [] => .ok (.inr g)
  | c :: rest =>
    let name := "-" ++ c.toString
    match letters.lookup c with
    | some .version => .ok (.inl .version)
    | some .help => .ok (.inl .help)
    | some (.switch s) =>
      match g.turnOn s name with
      | .ok g => readLetters g rest
      | .error e => .error e
    | some (.setting _) | none => .error (.unknownOption name)

/-- Reads arguments all of which are files. -/
def readFiles (g : Given) : List String → Except UsageError Request
  | [] => g.request
  | file :: rest =>
    match g.setFile file with
    | .ok g => readFiles g rest
    | .error e => .error e

/-- Whether an argument can be the value of the option before it. -/
def canBeValue (arg : String) : Bool :=
  match arg.toList with
  | '-' :: _ :: _ => false
  | _ => true

/-- Reads the remaining arguments. -/
def readArguments (g : Given) : List String → Except UsageError Request
  | [] => g.request
  | arg :: rest =>
    match arg.toList with
    | ['-', '-'] => readFiles g rest
    | '-' :: '-' :: long =>
      let (name, attached) := long.span (· ≠ '=')
      let shown := "--" ++ String.ofList name
      match keywords.lookup (String.ofList name), attached with
      | none, _ => .error (.unknownOption shown)
      | some (.setting s), _ :: value =>
        match g.set s shown (String.ofList value) with
        | .ok g => readArguments g rest
        | .error e => .error e
      | some (.setting s), [] =>
        match rest with
        | [] => .error (.missingValue shown)
        | value :: rest =>
          if canBeValue value then
            match g.set s shown value with
            | .ok g => readArguments g rest
            | .error e => .error e
          else .error (.missingValue shown)
      | some _, _ :: _ => .error (.unexpectedValue shown)
      | some .version, [] => .ok .version
      | some .help, [] => .ok .help
      | some (.switch s), [] =>
        match g.turnOn s shown with
        | .ok g => readArguments g rest
        | .error e => .error e
    | '-' :: c :: more =>
      match readLetters g (c :: more) with
      | .ok (.inl request) => .ok request
      | .ok (.inr g) => readArguments g rest
      | .error e => .error e
    | _ =>
      match g.setFile arg with
      | .ok g => readArguments g rest
      | .error e => .error e

/-- What the arguments of an invocation ask for. -/
def parse (args : List String) : Except UsageError Request :=
  readArguments {} args

end CommandLine

end Tapecode
