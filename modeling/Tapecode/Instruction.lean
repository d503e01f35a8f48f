/-!
# Instructions

A program has no pointer moves. Each instruction names the cell it uses by its offset from where the
last loop delimiter left the pointer. An `Effect` acts on that one cell; `enter` and `leave` are the
two delimiters of a loop, which move the pointer by their offset before they test the cell.
-/

namespace Tapecode

/-- What an instruction does with one cell. -/
inductive Effect
  /-- Store a value. -/
  | set (value : Int8)
  /-- Add an amount, modulo 256. -/
  | change (delta : Int8)
  /-- Store the next input byte. -/
  | input
  /-- Write the cell to the output. -/
  | output
  deriving DecidableEq, Repr

namespace Effect

/-- Sets and changes are writes whose result is known without input. -/
def isWrite : Effect → Bool
  | set _ | change _ => true
  | input | output => false

/-- What remains of a write that a change of the same cell follows: a single effect, or nothing when
two changes cancel. There is no answer for an effect that is not a write. -/
def followedBy (delta : Int8) : Effect → Option (List Effect)
  | set value => some [set (value + delta)]
  | change d => some (if d + delta = 0 then [] else [change (d + delta)])
  | input | output => none

end Effect

/-- One instruction of a program. -/
inductive Instruction
  /-- An effect on the cell at an offset. -/
  | act (effect : Effect) (offset : Int)
  /-- The start of a loop: move by the offset, and skip the loop if the cell is zero. -/
  | enter (offset : Int)
  /-- The end of a loop: move by the offset, and repeat the loop unless the cell is zero. -/
  | leave (offset : Int)
  deriving DecidableEq, Repr

namespace Instruction

/-- The offset of the cell that an instruction uses. -/
def offset : Instruction → Int
  | act _ o | enter o | leave o => o

/-- Loop delimiters move the pointer; nothing else does. -/
def isDelimiter : Instruction → Bool
  | enter _ | leave _ => true
  | act _ _ => false

/-- Sets and changes can absorb a change that follows them. -/
def isWrite : Instruction → Bool
  | act e _ => e.isWrite
  | enter _ | leave _ => false

/-- An instruction that writes the cell at `o`. -/
def writesAt (o : Int) (i : Instruction) : Bool :=
  i.isWrite && i.offset == o

/-- An instruction that stores zero. -/
def isClear : Instruction → Bool
  | act (.set value) _ => value == 0
  | _ => false

/-- What remains of a write that a change of its cell follows, see `Effect.followedBy`. -/
def followedBy (delta : Int8) : Instruction → Option (List Instruction)
  | act e o => (e.followedBy delta).map fun effects => effects.map (act · o)
  | enter _ | leave _ => none

/-- An instruction as a listing prints it. -/
def text : Instruction → String
  | act (.set value) o => "set " ++ toString value.toInt ++ " at " ++ toString o
  | act (.change delta) o => "change value at " ++ toString o ++ " by " ++ toString delta.toInt
  | act .input o => "input byte at " ++ toString o
  | act .output o => "output byte at " ++ toString o
  | enter o => "start loop at " ++ toString o
  | leave o => "end loop at " ++ toString o

end Instruction

end Tapecode
