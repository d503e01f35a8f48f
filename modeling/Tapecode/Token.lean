import Tapecode.Position

/-!
# Symbols and tokens

Eight bytes are symbols of the language; every other byte is a comment. `tokenize` lists the symbols
of a source text with their positions, then one token that marks the end of the input.
-/

namespace Tapecode

/-- The commands of the language. -/
inductive Symbol
  | increment
  | decrement
  | left
  | right
  | input
  | output
  | loopStart
  | loopEnd
  deriving DecidableEq, Repr

namespace Symbol

/-- Every symbol once. -/
def all : List Symbol :=
  [increment, decrement, left, right, input, output, loopStart, loopEnd]

/-- The character that stands for a symbol in a source text. -/
def char : Symbol → Char
  | increment => '+'
  | decrement => '-'
  | left => '<'
  | right => '>'
  | input => ','
  | output => '.'
  | loopStart => '['
  | loopEnd => ']'

/-- The byte that stands for a symbol in a source text. -/
def byte (s : Symbol) : UInt8 :=
  s.char.toUInt8

/-- The symbol that a byte stands for, if any. -/
def ofByte? (b : UInt8) : Option Symbol :=
  all.find? fun s => s.byte = b

/-- A symbol as it is printed. -/
def text (s : Symbol) : String :=
  s.char.toString

@[simp] theorem ofByte?_byte (s : Symbol) : ofByte? s.byte = some s := by
  cases s <;> decide

/-- A byte that is read as a symbol is that symbol's own byte. -/
theorem byte_of_ofByte? {b : UInt8} {s : Symbol} (h : ofByte? b = some s) : s.byte = b := by
  simpa using List.find?_some h

end Symbol

/-- What a token is: a symbol, or the end of the input. -/
inductive TokenKind
  | symbol (s : Symbol)
  | endOfInput
  deriving DecidableEq, Repr

/-- A token kind as it is printed. -/
def TokenKind.text : TokenKind → String
  | .symbol s => s.text
  | .endOfInput => "end of input"

/-- A token and where it stands. -/
structure Token where
  kind : TokenKind
  position : Position
  deriving DecidableEq, Repr

/-- The tokens of `bytes` when the first of them stands at `p`. -/
def tokenizeFrom (p : Position) : List UInt8 → List Token
  | [] => [⟨.endOfInput, p⟩]
  | b :: rest =>
    match Symbol.ofByte? b with
    | some s => ⟨.symbol s, p⟩ :: tokenizeFrom (p.after b) rest
    | none => tokenizeFrom (p.after b) rest

/-- The tokens of a source text. -/
def tokenize (source : List UInt8) : List Token :=
  tokenizeFrom .start source

end Tapecode
