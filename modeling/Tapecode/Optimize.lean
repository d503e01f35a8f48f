import Tapecode.Builder

/-!
# Optimising a finished program

`Program.optimize` replays a program through a new builder. The offsets of the program count from its
own loop delimiters. A loop that the builder drops or turns into a set leaves no delimiter behind, and
the pointer stays where that loop was entered; `base` is the distance by which the offsets that follow
have to be shifted. As in a builder, the shifted offset is an unchecked sum in some `Arithmetic`.
-/

namespace Tapecode

namespace Builder

/-- Replays one instruction whose offset counts from `base`, and gives the base for the next. -/
def replay (b : Builder) (base : Int) (i : Instruction) (arithmetic : Arithmetic := .exact) :
    Except BuildError Int × Builder :=
  let b := { b with offset := arithmetic.add base i.offset }
  match i with
  | .act effect _ =>
    let (result, b) :=
      match effect with
      | .change delta => b.change delta
      | .set value => b.set value
      | .input => b.input
      | .output => b.output
    (result.map fun _ => base, b)
  | .enter _ =>
    let (result, b) := b.startLoop
    (result.map fun _ => 0, b)
  | .leave _ =>
    let (result, b) := b.endLoop
    (result.map fun _ => b.offset, b)

/-- Replays a program whose offsets count from `base`, then hands over what was built. -/
def replayAll (b : Builder) (base : Int) (p : Program) (arithmetic : Arithmetic := .exact) :
    Except BuildError Program :=
  match p with
  | [] => b.finalize.1
  | i :: rest =>
    match b.replay base i arithmetic with
    | (.ok base, b) => b.replayAll base rest arithmetic
    | (.error e, _) => .error e

end Builder

/-- The program that a builder with these passes makes of the instructions of `p`. -/
def Program.optimize (passes : Passes) (p : Program) (arithmetic : Arithmetic := .exact) :
    Except BuildError Program :=
  { passes : Builder }.replayAll 0 p arithmetic

end Tapecode
