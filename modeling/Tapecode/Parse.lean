import Tapecode.Builder

/-!
# Parsing

Tokens drive a builder. Parsing stops at the first end-of-input token, or when the tokens run out. It
fails on the first loop end without a start, and otherwise on a loop that is still open at the end, of
which the innermost is named. Loops that the builder finds dead are reported as warnings, in the order
in which they are closed.
-/

namespace Tapecode

/-- Why a source text is not a program. -/
inductive ParseError
  /-- A loop end without a start, at this position. -/
  | unmatchedCloseBracket (position : Position)
  /-- The input ended at `position` with the loop started at `opened` still open. -/
  | unclosedLoop (position opened : Position)
  /-- The builder refused a command. -/
  | builder (cause : BuildError)
  deriving DecidableEq, Repr

namespace ParseError

/-- An error as it is printed. -/
def message : ParseError → String
  | unmatchedCloseBracket _ => "this ] has no matching ["
  | unclosedLoop _ opened => "reached end of input with the [ at " ++ opened.text ++ " still open"
  | builder cause => cause.message

/-- Where the error is to be shown: for an open loop, where the input ended. -/
def position? : ParseError → Option Position
  | unmatchedCloseBracket p => some p
  | unclosedLoop p _ => some p
  | builder _ => none

end ParseError

/-- A loop that was dropped because it can never run. -/
structure Warning where
  /-- Where the loop starts. -/
  position : Position
  deriving DecidableEq, Repr

/-- A warning as it is printed. -/
def Warning.message (_ : Warning) : String :=
  "this loop is never executed"

/-- The state of a parse between two tokens. -/
structure Parse where
  builder : Builder
  /-- The positions of the loops that are still open, innermost first. -/
  opened : List Position := []
  /-- The warnings so far, first to last. -/
  warnings : Array Warning := #[]

namespace Parse

/-- A parse that has seen no token. -/
def start (passes : Passes) : Parse :=
  { builder := { passes } }

/-- The parse after a builder command, unless the builder refused it. -/
def afterCommand (p : Parse) : Except BuildError Unit × Builder → Except ParseError Parse
  | (.ok (), builder) => .ok { p with builder }
  | (.error cause, _) => .error (.builder cause)

/-- The parse after one more symbol. -/
def step (p : Parse) (s : Symbol) (position : Position) (arithmetic : Arithmetic := .exact) :
    Except ParseError Parse :=
  match s with
  | .increment => p.afterCommand (p.builder.change 1)
  | .decrement => p.afterCommand (p.builder.change (-1))
  | .left => p.afterCommand (p.builder.move (-1) arithmetic)
  | .right => p.afterCommand (p.builder.move 1 arithmetic)
  | .input => p.afterCommand p.builder.input
  | .output => p.afterCommand p.builder.output
  | .loopStart => { p with opened := position :: p.opened }.afterCommand p.builder.startLoop
  | .loopEnd =>
    match p.opened with
    | [] => .error (.unmatchedCloseBracket position)
    | start :: opened =>
      match p.builder.endLoop with
      | (.error cause, _) => .error (.builder cause)
      | (.ok fate, builder) =>
        .ok
          { builder
            opened
            warnings := if fate = .removed then p.warnings.push ⟨start⟩ else p.warnings }

/-- The result of a parse when no token is left. -/
def finish (p : Parse) : Except ParseError (Program × List Warning) :=
  match p.opened with
  | opened :: _ => .error (.unclosedLoop opened opened)
  | [] =>
    match p.builder.finalize.1 with
    | .ok program => .ok (program, p.warnings.toList)
    | .error cause => .error (.builder cause)

/-- The result of a parse that goes on with `tokens`. -/
def run (p : Parse) (tokens : List Token) (arithmetic : Arithmetic := .exact) :
    Except ParseError (Program × List Warning) :=
  match tokens with
  | [] => p.finish
  | ⟨.endOfInput, position⟩ :: _ =>
    match p.opened with
    | opened :: _ => .error (.unclosedLoop position opened)
    | [] => p.finish
  | ⟨.symbol s, position⟩ :: rest =>
    match p.step s position arithmetic with
    | .ok p => p.run rest arithmetic
    | .error e => .error e

end Parse

/-- The program of a list of tokens, and the loops dropped from it. -/
def parseTokens (passes : Passes) (tokens : List Token) (arithmetic : Arithmetic := .exact) :
    Except ParseError (Program × List Warning) :=
  (Parse.start passes).run tokens arithmetic

/-- The program of a source text, and the loops dropped from it. -/
def parse (passes : Passes) (source : List UInt8) (arithmetic : Arithmetic := .exact) :
    Except ParseError (Program × List Warning) :=
  parseTokens passes (tokenize source) arithmetic

end Tapecode
