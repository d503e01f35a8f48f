import Tapecode.Program
import Tapecode.Word

/-!
# Building programs

A `Builder` takes one command at a time and holds the program built so far. Pointer moves are never
emitted: they add up in `offset`, and each instruction carries the offset at which it was called. Four
passes, each of which can be switched off, simplify the end of the program as it grows:

* a change of a cell is combined with a write of the same cell directly before it;
* a set or an input drops the writes of the same cell directly before it;
* a loop whose cell is known to be zero on entry is dropped when it is closed;
* a loop that only changes its own cell becomes a set to zero when it is closed.

No pass looks past a loop delimiter, so a builder keeps the instructions of each open loop apart, and
what stands before an open loop is never touched until the loop is closed.

Offsets are 64-bit integers that are added unchecked, by the `Arithmetic` that a move is given. With
moves that stay within 64 bits the exact one, which is the default, is what a builder computes.
-/

namespace Tapecode

/-- Which simplifications a builder makes. -/
structure Passes where
  /-- Sum adjacent changes of a cell, and drop those that sum to zero. -/
  combineChanges : Bool := true
  /-- Drop writes that a following set or input overwrites. -/
  deadStores : Bool := true
  /-- Drop loops whose cell is zero on entry. -/
  deadLoops : Bool := true
  /-- Turn a loop that counts its cell to zero into a set. -/
  clearLoops : Bool := true
  deriving DecidableEq, Repr

namespace Passes

/-- Every simplification. -/
def all : Passes := {}

/-- No simplification. -/
def off : Passes :=
  { combineChanges := false, deadStores := false, deadLoops := false, clearLoops := false }

/-- Emits a change after `recent`, which is listed last instruction first. -/
def emitChange (passes : Passes) (delta : Int8) (offset : Int) (recent : List Instruction) :
    List Instruction :=
  match recent with
  | last :: older =>
    let merged := if passes.combineChanges && last.offset == offset then last.followedBy delta else none
    match merged with
    | some merged => merged ++ older
    | none => .act (.change delta) offset :: recent
  | [] => [.act (.change delta) offset]

/-- Emits a set or an input after `recent`, which is listed last instruction first. -/
def emitStore (passes : Passes) (effect : Effect) (offset : Int) (recent : List Instruction) :
    List Instruction :=
  .act effect offset ::
    if passes.deadStores then recent.dropWhile (·.writesAt offset) else recent

end Passes

/-- Why a builder refuses a command. -/
inductive BuildError
  /-- The program has been handed over. -/
  | alreadyFinalized
  /-- An instruction was to be dropped where there is none. -/
  | emptyPop
  /-- A program with open loops cannot be handed over. -/
  | unclosedLoop
  /-- There is no open loop to end. -/
  | unmatchedLoopEnd
  deriving DecidableEq, Repr

/-- An error as it is printed. -/
def BuildError.message : BuildError → String
  | alreadyFinalized => "chunk has already been finalized"
  | emptyPop => "cannot pop from an empty instruction list"
  | unclosedLoop => "cannot finalize a chunk with unclosed loops"
  | unmatchedLoopEnd => "loop end without a loop start"

/-- What became of a loop when it was closed. -/
inductive LoopFate
  /-- It stands as it was written. -/
  | kept
  /-- It can never run and was dropped. -/
  | removed
  /-- It was replaced by a set to zero. -/
  | cleared
  deriving DecidableEq, Repr

/-- A loop that has been started and not ended. -/
structure OpenLoop where
  /-- The instructions between the next enclosing loop's start and this one's, last first. -/
  before : List Instruction
  /-- The offset at which the loop is entered. -/
  entry : Int
  deriving DecidableEq, Repr

/-- A program under construction. -/
structure Builder where
  passes : Passes
  /-- The instructions since the start of the innermost open loop, last first. -/
  recent : List Instruction := []
  /-- The open loops, innermost first. -/
  loops : List OpenLoop := []
  /-- How far the pointer has moved since the last loop delimiter. -/
  offset : Int := 0
  /-- Whether the program has been handed over. -/
  finalized : Bool := false
  deriving DecidableEq, Repr

namespace Builder

/-! ## The program so far -/

/-- The instructions of open loops and of what follows them, last first. -/
def unwind (recent : List Instruction) : List OpenLoop → List Instruction
  | [] => recent
  | l :: outer => recent ++ .enter l.entry :: unwind l.before outer

/-- The program built so far. -/
def instructions (b : Builder) : Program :=
  (unwind b.recent b.loops).reverse

/-- The indices in `instructions` of the starts of the open loops, innermost first. -/
def openStarts (b : Builder) : List Nat :=
  starts b.loops
where
  /-- The indices of the starts of some open loops. -/
  starts : List OpenLoop → List Nat
    | [] => []
    | l :: outer => (unwind l.before outer).length :: starts outer

/-- Whether every loop has been closed. -/
def canFinalize (b : Builder) : Bool :=
  b.loops.isEmpty

/-! ## Commands

Each command answers with its result or an error and with the builder after it. A finalized builder
refuses every command. -/

/-- Changes the instructions since the innermost open loop's start. -/
def edit (b : Builder) (f : List Instruction → List Instruction) :
    Except BuildError Unit × Builder :=
  if b.finalized then (.error .alreadyFinalized, b)
  else (.ok (), { b with recent := f b.recent })

/-- Adds to the current cell. -/
def change (b : Builder) (delta : Int8) : Except BuildError Unit × Builder :=
  b.edit (b.passes.emitChange delta b.offset)

/-- Stores a value in the current cell. -/
def set (b : Builder) (value : Int8) : Except BuildError Unit × Builder :=
  b.edit (b.passes.emitStore (.set value) b.offset)

/-- Stores an input byte in the current cell. -/
def input (b : Builder) : Except BuildError Unit × Builder :=
  b.edit (b.passes.emitStore .input b.offset)

/-- Writes the current cell to the output. -/
def output (b : Builder) : Except BuildError Unit × Builder :=
  b.edit (.act .output b.offset :: ·)

/-- Moves the pointer. Nobody asks whether the new offset fits in 64 bits. -/
def move (b : Builder) (distance : Int) (arithmetic : Arithmetic := .exact) :
    Except BuildError Unit × Builder :=
  if b.finalized then (.error .alreadyFinalized, b)
  else (.ok (), { b with offset := arithmetic.add b.offset distance })

/-- Starts a loop on the current cell. -/
def startLoop (b : Builder) : Except BuildError Unit × Builder :=
  if b.finalized then (.error .alreadyFinalized, b)
  else (.ok (), { b with recent := [], loops := ⟨b.recent, b.offset⟩ :: b.loops, offset := 0 })

/-- Whether the cell of a loop is zero whenever the loop is entered. All cells are zero at the start
of a program, the cell on which a loop ends is zero, and so is a cell that has just been set to zero. -/
def isDead (l : OpenLoop) (outer : List OpenLoop) : Bool :=
  match l.before with
  | [] => outer.isEmpty
  | .leave _ :: _ => l.entry == 0
  | last :: _ => last.isClear && last.offset == l.entry

/-- Whether a loop with this body, last instruction first, that ends at `offset` does nothing but
count its own cell to zero. -/
def isClearing (body : List Instruction) (offset : Int) : Bool :=
  match body with
  | [.act (.change delta) 0] => offset == 0 && delta != 0
  | _ => false

/-- Ends the innermost open loop. -/
def endLoop (b : Builder) : Except BuildError LoopFate × Builder :=
  if b.finalized then (.error .alreadyFinalized, b)
  else
    match b.loops with
    | [] => (.error .unmatchedLoopEnd, b)
    | l :: outer =>
      if b.passes.deadLoops && isDead l outer then
        (.ok .removed, { b with recent := l.before, loops := outer, offset := l.entry })
      else if b.passes.clearLoops && isClearing b.recent b.offset then
        (.ok .cleared,
          { b with
            recent := b.passes.emitStore (.set 0) l.entry l.before
            loops := outer
            offset := l.entry })
      else
        (.ok .kept,
          { b with
            recent := .leave b.offset :: (b.recent ++ .enter l.entry :: l.before)
            loops := outer
            offset := 0 })

/-- Hands the program over and leaves the builder finalized and empty. -/
def finalize (b : Builder) : Except BuildError Program × Builder :=
  if b.finalized then (.error .alreadyFinalized, b)
  else if b.canFinalize then (.ok b.instructions, { b with recent := [], finalized := true })
  else (.error .unclosedLoop, b)

end Builder

end Tapecode
