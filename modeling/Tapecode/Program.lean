import Tapecode.Instruction
import Tapecode.Token
import Tapecode.Text.Columns

/-!
# Programs

A program is a list of instructions. Its loops need not be closed: the builder only makes programs
whose loops are, but a program may also come from elsewhere. `listing` prints a program, and `symbols`
gives a source text for it, in which each set becomes a loop that clears the cell and each change of
offset becomes pointer moves.
-/

namespace Tapecode

/-- A list of instructions. -/
abbrev Program := List Instruction

namespace Program

/-- One line for each instruction, with its index. -/
def listing (p : Program) : String :=
  "\n".intercalate <|
    p.mapIdx fun index i => Text.alignRight 4 (toString index) ++ " " ++ i.text

/-! ## Source text -/

/-- `n` times `forth`, or `-n` times `back` when `n` is negative. -/
def repeated (back forth : Symbol) (n : Int) : List Symbol :=
  List.replicate n.natAbs (if n < 0 then back else forth)

/-- The moves that take the pointer `distance` cells to the right. -/
def moves (distance : Int) : List Symbol :=
  repeated .left .right distance

/-- The unit changes that add `amount` to a cell. -/
def units (amount : Int8) : List Symbol :=
  repeated .decrement .increment amount.toInt

/-- The symbols of an instruction once the pointer stands on its cell. -/
def symbolsAt : Instruction → List Symbol
  | .act (.change delta) _ => units delta
  | .act (.set value) _ => [.loopStart, .decrement, .loopEnd] ++ units value
  | .act .input _ => [.input]
  | .act .output _ => [.output]
  | .enter _ => [.loopStart]
  | .leave _ => [.loopEnd]

/-- The offset at which the pointer stands after the symbols of an instruction. Offsets count anew
after a loop delimiter. -/
def settled (i : Instruction) : Int :=
  if i.isDelimiter then 0 else i.offset

/-- The symbols of a program when the pointer stands at offset `here`. -/
def symbolsFrom (here : Int) : Program → List Symbol
  | [] => []
  | i :: rest => moves (i.offset - here) ++ symbolsAt i ++ symbolsFrom (settled i) rest

/-- A source text, as symbols, that does what the program does. -/
def symbols (p : Program) : List Symbol :=
  symbolsFrom 0 p

/-- A source text that does what the program does. -/
def source (p : Program) : List UInt8 :=
  p.symbols.map Symbol.byte

/-- The same source text as it is printed. -/
def sourceText (p : Program) : String :=
  String.ofList (p.symbols.map Symbol.char)

end Program

end Tapecode
