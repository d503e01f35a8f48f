import Tapecode.Machine
import Tapecode.Parse

/-!
# Errors of the whole pipeline

From source text to the end of a run, three stages can fail. An error is internal when no source text
can cause it: a builder or a compiler that refuses what the parser made, or bytecode that the compiler
would not make.
-/

namespace Tapecode

/-- Why a source text could not be compiled or run. -/
inductive Error
  | parse (cause : ParseError)
  | compile (cause : NestError)
  | runtime (cause : Fault)
  deriving DecidableEq, Repr

namespace Error

/-- An error as it is printed. -/
def message : Error → String
  | parse cause => cause.message
  | compile cause => "internal compiler error: " ++ cause.message
  | runtime cause => cause.message

/-- Errors that no source text should cause. -/
def isInternal : Error → Bool
  | parse (.builder _) => true
  | parse (.unmatchedCloseBracket _) | parse (.unclosedLoop _ _) => false
  | compile _ => true
  | runtime cause => cause.isInternal

/-- Where in the source text the error is to be shown. -/
def position? : Error → Option Position
  | parse cause => cause.position?
  | compile _ | runtime _ => none

end Error

/-- The bytecode of a source text. -/
def compileSource (passes : Passes) (source : List UInt8) : Except Error Bytecode :=
  match parse passes source with
  | .error e => .error (.parse e)
  | .ok (program, _) =>
    match program.compile with
    | .error e => .error (.compile e)
    | .ok code => .ok code

end Tapecode
