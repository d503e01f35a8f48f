import Tapecode.Error
import Tapecode.Optimize

/-!
# The journal

Each stage can give an account of what it does, in order. The accounts are kept apart from the stages:
they follow the same steps and only add notes.

* Reading a source text notes each symbol as it is taken, and between them each loop that the builder
  drops or turns into a set.
* A finished parse notes the size of its program, and a finished compilation that of its code.
* The end of a run notes where the machine stopped.
-/

namespace Tapecode

/-- How much detail a note belongs to. -/
inductive Detail
  | trace
  | debug
  deriving DecidableEq, Repr

/-- The name of a level of detail. -/
def Detail.text : Detail → String
  | trace => "TRACE"
  | debug => "DEBUG"

/-- One entry of a journal. -/
structure Note where
  detail : Detail
  text : String
  deriving DecidableEq, Repr

namespace Journal

/-- The note on a symbol taken from a source text. -/
def symbol (s : Symbol) (p : Position) : Note :=
  ⟨.trace, "token " ++ s.text ++ " at " ++ p.text⟩

/-- The notes of a builder that is about to end a loop. -/
def endLoop (b : Builder) : List Note :=
  match b.endLoop.1, b.openStarts with
  | .ok .removed, start :: _ =>
    [⟨.trace, "removing dead loop at instruction " ++ toString start⟩]
  | .ok .cleared, start :: _ =>
    [⟨.trace, "rewriting clear loop at instruction " ++ toString start⟩]
  | _, _ => []

/-! ## Parsing -/

/-- The notes on the tokens that a parse goes on to take. Symbols are noted if they come from a source
text rather than from a list of tokens. -/
def tokens (ofSource : Bool) (p : Parse) : List Token → List Note
  | [] => []
  | ⟨.endOfInput, _⟩ :: _ => []
  | ⟨.symbol s, position⟩ :: rest =>
    let taken := if ofSource then [symbol s position] else []
    let closing := if s = .loopEnd then endLoop p.builder else []
    let later :=
      match p.step s position with
      | .ok p => tokens ofSource p rest
      | .error _ => []
    taken ++ closing ++ later

/-- The note on a finished parse. -/
def parsed (program : Program) (warnings : List Warning) : Note :=
  ⟨.debug, "parsed " ++ toString program.length ++ " instructions (" ++
    toString warnings.length ++ " warnings)"⟩

/-- The notes on parsing a list of tokens. -/
def parseTokens (ofSource : Bool) (passes : Passes) (ts : List Token) : List Note :=
  let finished :=
    match Tapecode.parseTokens passes ts with
    | .ok (program, warnings) => [parsed program warnings]
    | .error _ => []
  tokens ofSource (.start passes) ts ++ finished

/-- The notes on parsing a source text. -/
def parse (passes : Passes) (source : List UInt8) : List Note :=
  parseTokens true passes (tokenize source)

/-- The notes on listing all tokens of a source text. -/
def tokenize (source : List UInt8) : List Note :=
  (Tapecode.tokenize source).filterMap fun t =>
    match t.kind with
    | .symbol s => some (symbol s t.position)
    | .endOfInput => none

/-! ## Later stages -/

/-- The notes on compiling a program. -/
def compile (program : Program) : List Note :=
  match program.compile with
  | .ok code =>
    [⟨.debug, "compiled " ++ toString program.length ++ " instructions into " ++
      toString code.length ++ " words"⟩]
  | .error _ => []

/-- The notes on replaying a program whose offsets count from `base`. -/
def replay (b : Builder) (base : Int) (p : Program) (arithmetic : Arithmetic := .exact) :
    List Note :=
  match p with
  | [] => []
  | i :: rest =>
    let closing :=
      match i with
      | .leave o => endLoop { b with offset := arithmetic.add base o }
      | .act _ _ | .enter _ => []
    let later :=
      match b.replay base i arithmetic with
      | (.ok base, b) => replay b base rest arithmetic
      | (.error _, _) => []
    closing ++ later

/-- The notes on optimising a program. -/
def optimize (passes : Passes) (program : Program) (arithmetic : Arithmetic := .exact) :
    List Note :=
  replay { passes } 0 program arithmetic

/-- The note on the end of a run. -/
def halted (m : Machine) : Note :=
  ⟨.trace, "halted at pc " ++ toString m.counter ++ " after " ++ toString m.steps ++ " steps"⟩

end Journal

end Tapecode
