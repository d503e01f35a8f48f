import Tapecode.Program

/-!
# Loop nests

A `Nest` is a program whose loops are matched: effects and whole loops in sequence. `Nest.program`
writes it out as a list of instructions, and `Nest.ofProgram?` finds the one nest that a list of
instructions writes out, or says which delimiter has no partner.

The list is read from its end. What follows a loop end is set aside until the loop's start is met, so
that a loop is complete as soon as its start has been read.
-/

namespace Tapecode

/-- Instructions with matched loops. -/
inductive Nest
  /-- Nothing more. -/
  | done
  /-- An effect on the cell at an offset, then the rest. -/
  | act (effect : Effect) (offset : Int) (rest : Nest)
  /-- A loop entered at one offset and left at another, then the rest. -/
  | loop (entry : Int) (body : Nest) (exit : Int) (rest : Nest)
  deriving DecidableEq, Repr

/-- Why a list of instructions has no matching of its loops. -/
inductive NestError
  /-- Some loop is started and never ended. -/
  | unclosedLoop
  /-- Some loop end has no loop start before it. -/
  | unmatchedLoopEnd
  deriving DecidableEq, Repr

/-- An error as it is printed. -/
def NestError.message : NestError → String
  | unclosedLoop => "chunk has loop starts without matching loop ends"
  | unmatchedLoopEnd => "chunk has a loop end without a matching loop start"

namespace Nest

/-- The instructions of a nest, in order. -/
def program : Nest → Program
  | done => []
  | act e o rest => .act e o :: rest.program
  | loop entry body exit rest => .enter entry :: (body.program ++ .leave exit :: rest.program)

/-- One nest after another. -/
def append : Nest → Nest → Nest
  | done, tail => tail
  | act e o rest, tail => act e o (rest.append tail)
  | loop entry body exit rest, tail => loop entry body exit (rest.append tail)

instance : Append Nest := ⟨append⟩

/-- What is known of a program after reading it from its end to some point. -/
structure Suffix where
  /-- The instructions from that point to the first loop end that is still without a start. -/
  nest : Nest := .done
  /-- For each loop end without a start, first to last: its offset and what follows it. -/
  ends : List (Int × Nest) := []
  /-- Whether a loop start without an end has been read. -/
  unclosed : Bool := false

/-- One instruction further to the front. -/
def Suffix.extend (i : Instruction) (s : Suffix) : Suffix :=
  match i with
  | .act e o => { s with nest := .act e o s.nest }
  | .leave o => { s with nest := .done, ends := (o, s.nest) :: s.ends }
  | .enter o =>
    match s.ends with
    | (exit, rest) :: ends => { s with nest := .loop o s.nest exit rest, ends }
    | [] => { s with unclosed := true }

/-- The nest that a program writes out. An unmatched loop end is reported in preference to an
unclosed loop. -/
def ofProgram? (p : Program) : Except NestError Nest :=
  let s := p.foldr Suffix.extend {}
  match s.ends, s.unclosed with
  | _ :: _, _ => .error .unmatchedLoopEnd
  | [], true => .error .unclosedLoop
  | [], false => .ok s.nest

/-! ## Reading what was written -/

@[simp] theorem append_done (n : Nest) : n ++ done = n := by
  induction n with
  | done => rfl
  | act e o rest ih => exact congrArg (act e o) ih
  | loop entry body exit rest _ ih => exact congrArg (loop entry body exit) ih

/-- Reading a nest's instructions puts the nest in front of what was read before. -/
theorem foldr_extend_program (n : Nest) (s : Suffix) :
    n.program.foldr Suffix.extend s = { s with nest := n ++ s.nest } := by
  induction n generalizing s with
  | done => rfl
  | act e o rest ih => simp only [program, List.foldr_cons, ih, Suffix.extend]; rfl
  | loop entry body exit rest ihBody ihRest =>
    simp only [program, List.foldr_cons, List.foldr_append, ihRest, Suffix.extend, ihBody,
      append_done]
    rfl

/-- A nest is found again from its instructions. -/
theorem ofProgram?_program (n : Nest) : ofProgram? n.program = .ok n := by
  simp only [ofProgram?, foldr_extend_program, append_done]

end Nest

end Tapecode
