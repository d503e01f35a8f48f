import Tapecode.Machine

/-!
# Structured runs

The meaning of a nest, said without code, addresses or jumps. A run works on a `State`: the tape,
the pointer, the number of steps and the console. It ends with an `Outcome`, the state after the
last instruction or a fault. A `Behaviour` relates the state in which a piece of program is started
to the outcome with which it ends, and a piece that runs for ever is related to no outcome.

* An effect acts on the cell at its offset from the pointer (`Effect.run`).
* A loop moves the pointer by its entry offset. While the cell under the pointer is not zero, it
  runs its body and moves the pointer by its exit offset (`Behaviour.loop`).

Every instruction first asks whether the step limit is reached, counts itself as a step and finds
its cell (`State.visit`). `Nest.Runs` puts these pieces together, and `Nest.runs_append` says that
nests written one after the other run one after the other.
-/

namespace Tapecode

/-- The fault that cuts a run off after so many steps, if the limit is reached. -/
def Settings.cutOff? (settings : Settings) (steps : Nat) : Option Fault :=
  match settings.stepLimit with
  | none => none
  | some limit => if limit ≤ steps then some (.stepLimitExceeded limit) else none

/-- What a run works on. -/
structure State where
  tape : Array UInt8
  pointer : Nat := 0
  /-- The number of instructions begun. -/
  steps : Nat := 0
  console : Console

/-- How a piece of a run ends. -/
inductive Outcome
  | done (s : State)
  | fault (cause : Fault) (s : State)

namespace State

/-- The state in which a program is started. -/
def initial (settings : Settings) (streams : Streams) : State :=
  { tape := Array.replicate settings.tapeSize 0
    console := { threshold := settings.flushThreshold, streams } }

/-- The value of a cell. -/
def value (s : State) (i : Nat) : UInt8 :=
  s.tape.getD i 0

/-- The value of the cell under the pointer. -/
def current (s : State) : UInt8 :=
  s.value s.pointer

/-- Stores a value in a cell. -/
def store (s : State) (i : Nat) (v : UInt8) : State :=
  { s with tape := s.tape.setIfInBounds i v }

/-- The state with the pointer on a cell. -/
def movedTo (s : State) (i : Nat) : State :=
  { s with pointer := i }

/-- The state with one more step counted. -/
def counted (s : State) : State :=
  { s with steps := s.steps + 1 }

/-- Begins an instruction on the cell at `offset`, which `use` then carries out. -/
def visit (settings : Settings) (offset : Int) (use : State → Nat → Outcome) (s : State) :
    Outcome :=
  match settings.cutOff? s.steps with
  | some cause => .fault cause s
  | none =>
    match Machine.locate s.tape.size (s.pointer + offset) with
    | .ok i => use s.counted i
    | .error cause => .fault cause s.counted

/-- Moves the pointer by an offset, as a loop delimiter does. -/
def moveBy (settings : Settings) (offset : Int) : State → Outcome :=
  visit settings offset fun s i => .done (s.movedTo i)

/-- A cell on the tape holds what was stored in it. -/
theorem value_store_self (s : State) {i : Nat} (h : i < s.tape.size) (v : UInt8) :
    (s.store i v).value i = v := by
  simp [value, store, h]

/-- The last value stored in a cell counts. -/
@[simp] theorem store_store (s : State) (i : Nat) (v w : UInt8) :
    (s.store i v).store i w = s.store i w := by
  simp [store]

/-- Storing what a cell holds changes nothing. -/
theorem store_value (s : State) (i : Nat) : s.store i (s.value i) = s := by
  have htape : s.tape.setIfInBounds i (s.tape.getD i 0) = s.tape := by
    apply Array.ext_getElem?
    intro j
    rw [Array.getElem?_setIfInBounds]
    split
    · rename_i hij
      subst hij
      by_cases hi : i < s.tape.size
      · simp [hi]
      · simp [hi]
    · rfl
  rw [store, value, htape]

@[simp] theorem current_movedTo (s : State) (i : Nat) : (s.movedTo i).current = s.value i := rfl

@[simp] theorem value_counted (s : State) (i : Nat) : s.counted.value i = s.value i := rfl

end State

namespace Effect

/-- Acts on a cell. -/
def perform (eof : EofPolicy) (e : Effect) (s : State) (i : Nat) : Outcome :=
  match e with
  | set v => .done (s.store i (Word.byte v.toInt))
  | change d => .done (s.store i (s.value i + Word.byte d.toInt))
  | input =>
    let (result, console) := s.console.readByte
    let s := { s with console }
    match result, eof with
    | .ok (some b), _ => .done (s.store i b)
    | .ok none, .sentinel v => .done (s.store i v)
    | .ok none, .fail => .fault .inputExhausted s
    | .error e, _ => .fault (.io e) s
  | output =>
    let (result, console) := s.console.push (s.value i)
    let s := { s with console }
    match result with
    | .ok () => .done s
    | .error e => .fault (.io e) s

/-- Acts on the cell at an offset from the pointer. -/
def run (settings : Settings) (e : Effect) (offset : Int) : State → Outcome :=
  State.visit settings offset (e.perform settings.eof)

end Effect

/-! ## Behaviours -/

/-- Which outcomes a piece of program can have, by the state in which it is started. -/
abbrev Behaviour := State → Outcome → Prop

/-- What follows an outcome: nothing after a fault. -/
def Outcome.Then (B : Behaviour) : Outcome → Outcome → Prop
  | .done s, r => B s r
  | .fault cause s, r => .fault cause s = r

namespace Behaviour

/-- A single instruction. -/
def of (f : State → Outcome) : Behaviour :=
  fun s r => f s = r

/-- One piece after another. -/
def seq (A B : Behaviour) : Behaviour :=
  fun s r => ∃ mid, A s mid ∧ mid.Then B r

/-- A piece that is repeated while the cell under the pointer is not zero. -/
inductive Iterates (round : Behaviour) : State → Outcome → Prop
  | stop {s : State} (hzero : s.current = 0) : Iterates round s (.done s)
  | fail {s t : State} {cause : Fault} (hcell : s.current ≠ 0) (hround : round s (.fault cause t)) :
      Iterates round s (.fault cause t)
  | again {s t : State} {r : Outcome} (hcell : s.current ≠ 0) (hround : round s (.done t))
      (hrest : Iterates round t r) : Iterates round s r

/-- One round of a loop: the body, then the move to the cell that decides about the next round. -/
def round (settings : Settings) (body : Behaviour) (exit : Int) : Behaviour :=
  body.seq (of (State.moveBy settings exit))

/-- A loop with its entry offset, body and exit offset. -/
def loop (settings : Settings) (entry : Int) (body : Behaviour) (exit : Int) : Behaviour :=
  (of (State.moveBy settings entry)).seq (Iterates (round settings body exit))

theorem seq_done {A B : Behaviour} {s t : State} {r : Outcome} (hA : A s (.done t)) (hB : B t r) :
    A.seq B s r :=
  ⟨.done t, hA, hB⟩

theorem seq_fault {A B : Behaviour} {s t : State} {cause : Fault} (hA : A s (.fault cause t)) :
    A.seq B s (.fault cause t) :=
  ⟨.fault cause t, hA, rfl⟩

/-- Either the first piece ends with a fault, or the second one follows. -/
theorem seq_inv {A B : Behaviour} {s : State} {r : Outcome} (h : A.seq B s r) :
    (∃ cause t, A s (.fault cause t) ∧ r = .fault cause t) ∨ ∃ t, A s (.done t) ∧ B t r := by
  obtain ⟨mid, hA, hB⟩ := h
  cases mid with
  | done t => exact .inr ⟨t, hA, hB⟩
  | fault cause t => exact .inl ⟨cause, t, hA, hB.symm⟩

theorem seq_assoc (A B C : Behaviour) : (A.seq B).seq C = A.seq (B.seq C) := by
  funext s r
  apply propext
  constructor
  · intro h
    rcases seq_inv h with ⟨cause, t, hAB, rfl⟩ | ⟨u, hAB, hC⟩
    · rcases seq_inv hAB with ⟨cause', t', hA, he⟩ | ⟨v, hA, hB⟩
      · exact he ▸ seq_fault hA
      · exact seq_done hA (seq_fault hB)
    · rcases seq_inv hAB with ⟨cause', t', -, he⟩ | ⟨v, hA, hB⟩
      · cases he
      · exact seq_done hA (seq_done hB hC)
  · intro h
    rcases seq_inv h with ⟨cause, t, hA, rfl⟩ | ⟨u, hA, hBC⟩
    · exact seq_fault (seq_fault hA)
    · rcases seq_inv hBC with ⟨cause, t, hB, rfl⟩ | ⟨v, hB, hC⟩
      · exact seq_fault (seq_done hA hB)
      · exact seq_done (seq_done hA hB) hC

theorem of_done_seq (A : Behaviour) : (of .done).seq A = A := by
  funext s r
  apply propext
  constructor
  · rintro ⟨mid, rfl, h⟩
    exact h
  · exact fun h => seq_done rfl h

theorem seq_of_done (A : Behaviour) : A.seq (of .done) = A := by
  funext s r
  apply propext
  constructor
  · intro h
    rcases seq_inv h with ⟨cause, t, hA, rfl⟩ | ⟨t, hA, rfl⟩ <;> exact hA
  · intro h
    cases r with
    | done t => exact seq_done h rfl
    | fault cause t => exact seq_fault h

end Behaviour

/-! ## Nests -/

namespace Nest

open Behaviour

/-- How a nest runs. -/
def Runs (settings : Settings) : Nest → Behaviour
  | done => of .done
  | act effect offset rest => (of (effect.run settings offset)).seq (rest.Runs settings)
  | loop entry body exit rest =>
    (Behaviour.loop settings entry (body.Runs settings) exit).seq (rest.Runs settings)

/-- **Nests written one after the other run one after the other.** -/
theorem runs_append (settings : Settings) (n k : Nest) :
    (n ++ k).Runs settings = (n.Runs settings).seq (k.Runs settings) := by
  induction n with
  | done => exact (of_done_seq _).symm
  | act e o rest ih =>
    calc (of (e.run settings o)).seq ((rest ++ k).Runs settings)
        = (of (e.run settings o)).seq ((rest.Runs settings).seq (k.Runs settings)) := by rw [ih]
      _ = _ := (seq_assoc _ _ _).symm
  | loop entry body exit rest _ ih =>
    calc (Behaviour.loop settings entry (body.Runs settings) exit).seq ((rest ++ k).Runs settings)
        = (Behaviour.loop settings entry (body.Runs settings) exit).seq
            ((rest.Runs settings).seq (k.Runs settings)) := by rw [ih]
      _ = _ := (seq_assoc _ _ _).symm

/-- A nest that ends with an effect. -/
theorem runs_append_act (settings : Settings) (n : Nest) (e : Effect) (o : Int) :
    (n ++ act e o done).Runs settings = (n.Runs settings).seq (of (e.run settings o)) := by
  rw [runs_append, Runs, Runs, seq_of_done]

/-- A nest that ends with a loop. -/
theorem runs_append_loop (settings : Settings) (n body : Nest) (entry exit : Int) :
    (n ++ loop entry body exit done).Runs settings =
      (n.Runs settings).seq (Behaviour.loop settings entry (body.Runs settings) exit) := by
  rw [runs_append, Runs, Runs, seq_of_done]

end Nest

end Tapecode
