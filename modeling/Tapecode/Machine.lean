import Tapecode.Bytecode
import Tapecode.Console

/-!
# The machine

The machine runs bytecode on a tape of bytes. Every instruction first finds its cell, at a distance
from the pointer; a cell outside the tape ends the run. Only jumps move the pointer. The machine trusts
nothing about the code: a word that is no opcode, operands that are cut off and a jump out of the code
all end the run with a fault.

`load?` sets the machine up, unless the tape or the output buffer would be too large to be allocated;
after that nothing has to be allocated any more, and `load` is the machine that one starts with. `step`
makes one step, `advance` a given number of them, and `finish` writes out what is still pending,
however the run ended. A run without a step limit need not end, so there is no function that runs to
the end; `advance` can be repeated for as long as it answers `running`.
-/

namespace Tapecode

/-- What reading past the end of the input does. -/
inductive EofPolicy
  /-- The cell is set to this value. -/
  | sentinel (value : UInt8)
  /-- The run ends with a fault. -/
  | fail
  deriving DecidableEq, Repr

/-- The settings of a run. -/
structure Settings where
  /-- The number of cells. -/
  tapeSize : Nat := 30000
  /-- Output is written once more than this many bytes are pending. -/
  flushThreshold : Nat := 50
  eof : EofPolicy := .sentinel 0
  /-- The number of steps after which a run is cut off, if any. -/
  stepLimit : Option Nat := none
  deriving DecidableEq, Repr

/-- Whether there can be a tape and an output buffer of the sizes that are asked for. The buffer holds
one byte more than the threshold. -/
def Settings.allocatable (s : Settings) : Bool :=
  decide ((s.tapeSize : Int) ≤ Word.greatest ∧ (s.flushThreshold : Int) + 1 ≤ Word.greatest)

/-- Why a run ended before the end of the code. -/
inductive Fault
  /-- An instruction used a cell outside the tape. -/
  | tapeOutOfBounds (cell : Int)
  /-- The program read past the end of the input. -/
  | inputExhausted
  /-- The run was cut off after this many steps. -/
  | stepLimitExceeded (limit : Nat)
  /-- There is no whole instruction at an address; `word` is what stands there. -/
  | invalidOpcode (address : Nat) (word : Word)
  /-- The jump at an address leads out of the code. -/
  | invalidJump (address : Nat)
  /-- A stream failed. -/
  | io (cause : StreamError)
  deriving DecidableEq, Repr

namespace Fault

/-- A fault as it is printed. -/
def message : Fault → String
  | tapeOutOfBounds cell => "pointer moved outside the tape (cell " ++ toString cell ++ ")"
  | inputExhausted => "program read past the end of its input"
  | stepLimitExceeded limit => "program did not halt within " ++ toString limit ++ " steps"
  | invalidOpcode address word =>
    "invalid opcode " ++ toString word ++ " at address " ++ toString address
  | invalidJump address => "jump at address " ++ toString address ++ " leaves the program"
  | io cause => cause.message

/-- Faults that only malformed bytecode can cause. -/
def isInternal : Fault → Bool
  | invalidOpcode _ _ | invalidJump _ => true
  | tapeOutOfBounds _ | inputExhausted | stepLimitExceeded _ | io _ => false

end Fault

/-- The state of a run. -/
structure Machine where
  tape : Array UInt8
  pointer : Nat := 0
  /-- The address of the next instruction. -/
  counter : Nat := 0
  /-- The number of instructions begun. -/
  steps : Nat := 0
  console : Console
  deriving DecidableEq, Repr

/-- Where a run stands. -/
inductive Progress
  | running (m : Machine)
  /-- The run is over: at the end of the code, or with a fault. -/
  | halted (fault : Option Fault) (m : Machine)
  deriving DecidableEq, Repr

namespace Machine

/-- The machine before its first step: an empty tape and the pointer on its first cell. -/
def load (settings : Settings) (streams : Streams) : Machine :=
  { tape := Array.replicate settings.tapeSize 0
    console := { threshold := settings.flushThreshold, streams } }

/-- Allocates the tape and the output buffer, which may fail, and gives the machine before its first
step. -/
def load? (settings : Settings) (streams : Streams) : Option Machine :=
  if (settings.tapeSize : Int) ≤ Word.greatest then
    (Console.create? settings.flushThreshold streams).map fun console =>
      { tape := Array.replicate settings.tapeSize 0, console }
  else none

/-- The cell with an address, on a tape of `size` cells. An address out of the 64-bit range is
reported as the nearest address in it. -/
def locate (size : Nat) (target : Int) : Except Fault Nat :=
  match Word.checked target with
  | none => .error (.tapeOutOfBounds (Word.saturate target))
  | some target =>
    if 0 ≤ target ∧ target < size then .ok target.toNat
    else .error (.tapeOutOfBounds target)

/-- The cell at a distance from the pointer. -/
def cell (m : Machine) (offset : Word) : Except Fault Nat :=
  locate m.tape.size (m.pointer + offset)

/-- The value of a cell. -/
def value (m : Machine) (i : Nat) : UInt8 :=
  m.tape.getD i 0

/-- Goes on `n` words further. -/
def skip (m : Machine) (n : Nat) : Progress :=
  .running { m with counter := m.counter + n }

/-- Stores a value in a cell. -/
def store (m : Machine) (i : Nat) (v : UInt8) : Machine :=
  { m with tape := m.tape.setIfInBounds i v }

/-- Puts the pointer on a cell. -/
def moveTo (m : Machine) (i : Nat) : Machine :=
  { m with pointer := i }

/-- Goes on at `target`, which is the end of the code or an address in it. No code is so long that a
target out of the 64-bit range could be in it, see `jump_eq_checked`. -/
def jump (m : Machine) (size : Nat) (target : Int) : Progress :=
  if 0 ≤ target ∧ target ≤ size then .running { m with counter := target.toNat }
  else .halted (some (.invalidJump m.counter)) m

/-- Stores the next input byte in a cell. -/
def readInto (m : Machine) (eof : EofPolicy) (i : Nat) : Progress :=
  let (result, console) := m.console.readByte
  let m := { m with console }
  match result, eof with
  | .ok (some b), _ => (m.store i b).skip 2
  | .ok none, .sentinel v => (m.store i v).skip 2
  | .ok none, .fail => .halted (some .inputExhausted) m
  | .error e, _ => .halted (some (.io e)) m

/-- Writes a cell to the output. -/
def writeFrom (m : Machine) (i : Nat) : Progress :=
  let (result, console) := m.console.push (m.value i)
  let m := { m with console }
  match result with
  | .ok () => m.skip 2
  | .error e => .halted (some (.io e)) m

/-- Carries out an instruction whose cell is `i`, in code of `size` words. -/
def perform (m : Machine) (size : Nat) (eof : EofPolicy) (i : Nat) : Op → Progress
  | .change _ amount => (m.store i (m.value i + Word.byte amount)).skip 3
  | .set _ v => (m.store i (Word.byte v)).skip 3
  | .input _ => m.readInto eof i
  | .output _ => m.writeFrom i
  | .jumpIfZero _ distance =>
    if m.value i = 0 then (m.moveTo i).jump size (m.counter + 3 + distance)
    else (m.moveTo i).skip 3
  | .jumpIfNotZero _ distance =>
    if m.value i = 0 then (m.moveTo i).skip 3
    else (m.moveTo i).jump size (m.counter + 3 - distance)

/-- Fetches and carries out the instruction at the counter, where there is the word `word`. -/
def execute (m : Machine) (code : Array Word) (eof : EofPolicy) (word : Word) : Progress :=
  match fetch code m.counter with
  | none => .halted (some (.invalidOpcode m.counter word)) m
  | some op =>
    let m := { m with steps := m.steps + 1 }
    match m.cell op.offset with
    | .ok i => m.perform code.size eof i op
    | .error fault => .halted (some fault) m

/-- Makes one step. A run is over at the end of the code, and cut off where a step would be one more
than the limit allows. -/
def step (m : Machine) (code : Array Word) (settings : Settings) : Progress :=
  match code[m.counter]? with
  | none => .halted none m
  | some word =>
    match settings.stepLimit with
    | none => m.execute code settings.eof word
    | some limit =>
      if limit ≤ m.steps then .halted (some (.stepLimitExceeded limit)) m
      else m.execute code settings.eof word

/-- Makes `n` steps, or fewer if the run is over before. -/
def advance (code : Array Word) (settings : Settings) : Nat → Machine → Progress
  | 0, m => .running m
  | n + 1, m =>
    match m.step code settings with
    | .running m => advance code settings n m
    | .halted fault m => .halted fault m

/-- Writes out what is pending at the end of a run. A fault of the run is reported in preference to
one of this last write. -/
def finish (m : Machine) (fault : Option Fault) : Option Fault × Machine :=
  match m.console.flush with
  | (.ok (), console) => (fault, { m with console })
  | (.error e, console) => (fault.or (some (.io e)), { m with console })

/-- A machine is set up exactly if its tape and its buffer can be allocated. -/
theorem load?_eq (settings : Settings) (streams : Streams) :
    load? settings streams = if settings.allocatable then some (load settings streams) else none := by
  by_cases htape : (settings.tapeSize : Int) ≤ Word.greatest <;>
    by_cases hbuffer : (settings.flushThreshold : Int) + 1 ≤ Word.greatest <;>
      simp [load?, Console.create?, Settings.allocatable, load, htape, hbuffer]

/-- Where the size of the code is a 64-bit integer, a jump is the same as one that first asks whether
its target is one. -/
theorem jump_eq_checked (m : Machine) {size : Nat} (target : Int) (h : (size : Int) ≤ Word.greatest) :
    m.jump size target =
      match Word.checked target with
      | none => .halted (some (.invalidJump m.counter)) m
      | some target => m.jump size target := by
  by_cases hin : 0 ≤ target ∧ target ≤ size
  · have hleast : Word.least ≤ target := Int.le_trans (by decide) hin.1
    have hgreatest : target ≤ Word.greatest := Int.le_trans hin.2 h
    rw [Word.checked_eq_some_iff.mpr ⟨rfl, hleast, hgreatest⟩]
  · rw [jump, if_neg hin]
    split
    · rfl
    · rename_i target' heq
      obtain ⟨rfl, -⟩ := Word.checked_eq_some_iff.mp heq
      rw [jump, if_neg hin]

end Machine

end Tapecode
