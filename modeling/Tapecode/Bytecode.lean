import Tapecode.Nest
import Tapecode.Word

/-!
# Bytecode

Bytecode is a flat list of words. Each instruction is an opcode followed by the offset of its cell and,
for all but input and output, one more operand: the amount to add, the value to store or the distance
to jump. A jump counts from the end of its own encoding, and both jumps of a loop carry the same
distance, the number of words from the end of the first to the end of the second.

`Nest.encode` lays out a nest, `Program.compile` a program whose loops are matched, and `fetch` reads
back the instruction at an address.
-/

namespace Tapecode

/-- A list of words to run. -/
abbrev Bytecode := List Word

/-- The kinds of machine instruction. -/
inductive Opcode
  | input
  | output
  | change
  | set
  | jumpIfZero
  | jumpIfNotZero
  deriving DecidableEq, Repr

namespace Opcode

/-- Every opcode once. -/
def all : List Opcode :=
  [input, output, change, set, jumpIfZero, jumpIfNotZero]

/-- The word that stands for an opcode. -/
def word : Opcode → Word
  | input => 1
  | output => 2
  | change => 3
  | set => 4
  | jumpIfZero => 5
  | jumpIfNotZero => 6

/-- The opcode that a word stands for, if any. -/
def ofWord? (w : Word) : Option Opcode :=
  all.find? fun opcode => opcode.word = w

/-- How many words an instruction takes, opcode included. -/
def width : Opcode → Nat
  | input | output => 2
  | change | set | jumpIfZero | jumpIfNotZero => 3

/-- The name of an opcode in a listing. -/
def mnemonic : Opcode → String
  | input => "in"
  | output => "out"
  | change => "add"
  | set => "set"
  | jumpIfZero => "jz"
  | jumpIfNotZero => "jnz"

@[simp] theorem ofWord?_word (opcode : Opcode) : ofWord? opcode.word = some opcode := by
  cases opcode <;> decide

/-- A word that is read as an opcode is that opcode's own word. -/
theorem word_of_ofWord? {w : Word} {opcode : Opcode} (h : ofWord? w = some opcode) :
    opcode.word = w := by
  simpa using List.find?_some h

end Opcode

/-- A machine instruction with its operands. -/
inductive Op
  | input (offset : Word)
  | output (offset : Word)
  | change (offset amount : Word)
  | set (offset value : Word)
  | jumpIfZero (offset distance : Word)
  | jumpIfNotZero (offset distance : Word)
  deriving DecidableEq, Repr

namespace Op

/-- The kind of an instruction. -/
def opcode : Op → Opcode
  | input _ => .input
  | output _ => .output
  | change _ _ => .change
  | set _ _ => .set
  | jumpIfZero _ _ => .jumpIfZero
  | jumpIfNotZero _ _ => .jumpIfNotZero

/-- The offset of the cell that an instruction uses. -/
def offset : Op → Word
  | input o | output o => o
  | change o _ | set o _ | jumpIfZero o _ | jumpIfNotZero o _ => o

/-- The words after the opcode. -/
def operands : Op → List Word
  | input o | output o => [o]
  | change o x | set o x | jumpIfZero o x | jumpIfNotZero o x => [o, x]

/-- How many words an instruction takes. -/
def width (op : Op) : Nat :=
  op.opcode.width

/-- The words of an instruction. -/
def words (op : Op) : List Word :=
  op.opcode.word :: op.operands

@[simp] theorem length_words (op : Op) : op.words.length = op.width := by
  cases op <;> rfl

end Op

/-- The instruction whose words start at an address, if there is a whole one. -/
def fetch (code : Array Word) (address : Nat) : Option Op := do
  let opcode ← Opcode.ofWord? (← code[address]?)
  let offset ← code[address + 1]?
  match opcode with
  | .input => some (.input offset)
  | .output => some (.output offset)
  | .change => (code[address + 2]?).map (.change offset)
  | .set => (code[address + 2]?).map (.set offset)
  | .jumpIfZero => (code[address + 2]?).map (.jumpIfZero offset)
  | .jumpIfNotZero => (code[address + 2]?).map (.jumpIfNotZero offset)

/-! ## Encoding -/

/-- The machine instruction for an effect. -/
def Effect.op (offset : Int) : Effect → Op
  | .set value => .set offset value.toInt
  | .change delta => .change offset delta.toInt
  | .input => .input offset
  | .output => .output offset

/-- The words of a nest. -/
def Nest.encode : Nest → Bytecode
  | done => []
  | act effect offset rest => (effect.op offset).words ++ rest.encode
  | loop entry body exit rest =>
    let inner := body.encode
    let distance : Word := inner.length + Opcode.jumpIfNotZero.width
    (Op.jumpIfZero entry distance).words ++
      (inner ++ ((Op.jumpIfNotZero exit distance).words ++ rest.encode))

/-- The bytecode of a program, if its loops are matched. -/
def Program.compile (p : Program) : Except NestError Bytecode :=
  (Nest.ofProgram? p).map Nest.encode

/-- The bytecode of a nest's own program is the nest's encoding. -/
theorem Nest.compile_program (n : Nest) : n.program.compile = .ok n.encode := by
  rw [Program.compile, Nest.ofProgram?_program, Except.map]

end Tapecode
