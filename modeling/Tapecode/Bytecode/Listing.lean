import Tapecode.Bytecode
import Tapecode.Text.Columns

/-!
# Bytecode listings

A listing has one line for each instruction, with the address at which its words start. A jump also
shows the address at which it lands when it is taken. The listing ends at the first word that is no
opcode, and at an instruction whose operands are cut off by the end of the code.
-/

namespace Tapecode

namespace Bytecode

/-- One line of a listing. -/
inductive Line
  /-- A whole instruction. -/
  | whole (address : Nat) (op : Op)
  /-- An opcode whose operands are cut off. -/
  | truncated (address : Nat) (opcode : Opcode)
  /-- A word that is no opcode. -/
  | unknown (address : Nat) (word : Word)
  deriving DecidableEq, Repr

/-- The lines of some words, the first of which is at `address`. -/
def linesFrom (address : Nat) : Bytecode → List Line
  | [] => []
  | w :: rest =>
    match Opcode.ofWord? w, rest with
    | some .input, o :: rest => .whole address (.input o) :: linesFrom (address + 2) rest
    | some .output, o :: rest => .whole address (.output o) :: linesFrom (address + 2) rest
    | some .change, o :: x :: rest => .whole address (.change o x) :: linesFrom (address + 3) rest
    | some .set, o :: x :: rest => .whole address (.set o x) :: linesFrom (address + 3) rest
    | some .jumpIfZero, o :: x :: rest =>
      .whole address (.jumpIfZero o x) :: linesFrom (address + 3) rest
    | some .jumpIfNotZero, o :: x :: rest =>
      .whole address (.jumpIfNotZero o x) :: linesFrom (address + 3) rest
    | some opcode, _ => [.truncated address opcode]
    | none, _ => [.unknown address w]

/-- The address at which a jump that starts at `address` lands when it is taken. -/
def landing? (address : Nat) : Op → Option Int
  | .jumpIfZero _ distance => some (address + 3 + distance)
  | .jumpIfNotZero _ distance => some (address + 3 - distance)
  | .input _ | .output _ | .change _ _ | .set _ _ => none

/-- A line as it is printed. -/
def Line.text : Line → String
  | .whole address op =>
    let operands := op.operands.map fun x => " " ++ Text.alignRight 4 (toString x)
    let landing :=
      match landing? address op with
      | some target => "  -> " ++ Text.zeroFill 4 target
      | none => ""
    Text.zeroFill 4 address ++ " " ++ Text.alignLeft 4 op.opcode.mnemonic ++
      String.join operands ++ landing
  | .truncated address opcode => Text.zeroFill 4 address ++ " " ++ opcode.mnemonic ++ " <truncated>"
  | .unknown address word => Text.zeroFill 4 address ++ " ??? " ++ toString word

/-- The lines of a listing. -/
def lines (code : Bytecode) : List Line :=
  linesFrom 0 code

/-- A listing as it is printed. -/
def listing (code : Bytecode) : String :=
  "\n".intercalate (code.lines.map Line.text)

end Bytecode

end Tapecode
