import Tapecode.Proofs.Output
import Tapecode.Proofs.Refinement

/-!
# The machine stays within its bounds

The machine takes any list of words for code. It may jump into the middle of an instruction, decode
operands as opcodes and come to instructions that are cut off, and offsets and distances may be as
large as a word can be. Nothing of this leads it out of its code or off its tape:

* `Machine.InBounds` says where the machine stands: the tape keeps its size, the pointer is on the
  tape, and the counter is at most the end of the code. Every run keeps this
  (`Machine.InBounds.advance`).
* `Machine.stepChecked` makes one step and checks each access on its own. It has no result if a cell
  or a word of the code is used that does not exist, or if a number is used as a word that is none.
  This never happens (`Machine.stepChecked_eq_step`), so that the defaults with which `Machine.step`
  reads cells play no part.

`machine_safe` is the result for whole executions. Only one thing can keep code from having an
answer (`Answers`), and it comes before the first step: a tape or an output buffer that is too large to
be allocated.
-/

namespace Tapecode

theorem Word.checked_natCast {n : Nat} (h : (n : Int) ≤ greatest) : checked n = some (n : Int) :=
  checked_eq_some_iff.mpr ⟨rfl, Int.le_trans (by decide) (Int.natCast_nonneg n), h⟩

/-! ## Fetched instructions -/

/-- The words of a fetched instruction stand in the code. -/
theorem getElem?_of_fetch {code : Array Word} {address k : Nat} {op : Op} {w : Word}
    (h : fetch code address = some op) (hw : op.words[k]? = some w) :
    code[address + k]? = some w := by
  simp only [fetch, Option.bind_eq_bind, Option.bind_eq_some_iff] at h
  obtain ⟨word, hword, opcode, hopcode, offset, hoffset, h⟩ := h
  obtain rfl := Opcode.word_of_ofWord? hopcode
  cases opcode with
  | input | output =>
    obtain rfl := Option.some.inj h
    match k, hw with
    | 0, rfl => exact hword
    | 1, rfl => exact hoffset
  | change | set | jumpIfZero | jumpIfNotZero =>
    obtain ⟨x, hx, rfl⟩ := Option.map_eq_some_iff.mp h
    match k, hw with
    | 0, rfl => exact hword
    | 1, rfl => exact hoffset
    | 2, rfl => exact hx

theorem add_width_le_of_fetch {code : Array Word} {address : Nat} {op : Op}
    (h : fetch code address = some op) : address + op.width ≤ code.size := by
  have hpos : 0 < op.words.length := by simp [Op.words]
  have hlast : op.words[op.words.length - 1]? = some (op.words[op.words.length - 1]) := by simp
  have hin := (Array.getElem?_eq_some_iff.mp (getElem?_of_fetch h hlast)).1
  rw [Op.length_words] at hin hpos
  omega

/-- An opcode whose operands are not cut off is the start of an instruction. -/
theorem exists_fetch {code : Array Word} {address : Nat} {w : Word} {opcode : Opcode}
    (hw : code[address]? = some w) (hopcode : Opcode.ofWord? w = some opcode)
    (hsize : address + opcode.width ≤ code.size) : ∃ op, fetch code address = some op := by
  have hoperand (k : Nat) (hk : k < opcode.width) : ∃ x, code[address + k]? = some x :=
    ⟨_, Array.getElem?_eq_getElem (by omega)⟩
  obtain ⟨offset, hoffset⟩ := hoperand 1 (by cases opcode <;> decide)
  cases opcode with
  | input | output => simp [fetch, hw, hopcode, hoffset]
  | change | set | jumpIfZero | jumpIfNotZero =>
    obtain ⟨x, hx⟩ := hoperand 2 (by decide)
    simp [fetch, hw, hopcode, hoffset, hx]

namespace Machine

/-! ## Bounds -/

/-- The machine stands within the bounds of `size` words of code and a tape of `cells` cells. The
pointer of a tape without cells stays where it was at first. -/
structure InBounds (size cells : Nat) (m : Machine) : Prop where
  tape : m.tape.size = cells
  pointer : m.pointer < cells ∨ m.pointer = 0
  counter : m.counter ≤ size
  /-- The pointer can be used as a word. -/
  fits : (m.pointer : Int) ≤ Word.greatest

theorem inBounds_load (size : Nat) (settings : Settings) (streams : Streams) :
    (load settings streams).InBounds size settings.tapeSize where
  tape := Array.size_replicate
  pointer := .inr rfl
  counter := Nat.zero_le _
  fits := by simp [load, Word.greatest]

/-- A cell that is found has an address that is a word. -/
theorem le_greatest_of_locate {size : Nat} {target : Int} {i : Nat}
    (h : locate size target = .ok i) : (i : Int) ≤ Word.greatest := by
  have htarget := (locate_eq_ok h).2
  unfold locate at h
  split at h
  · cases h
  · rename_i target' hchecked
    have := (Word.checked_eq_some_iff.mp hchecked).2.2
    omega

namespace InBounds

variable {size cells : Nat} {m : Machine}

theorem of_tape (h : m.InBounds size cells) {tape : Array UInt8} (htape : tape.size = cells)
    (console : Console) : { m with tape, console }.InBounds size cells :=
  ⟨htape, h.pointer, h.counter, h.fits⟩

theorem counted (h : m.InBounds size cells) : m.counted.InBounds size cells :=
  ⟨h.tape, h.pointer, h.counter, h.fits⟩

theorem store (h : m.InBounds size cells) (i : Nat) (v : UInt8) :
    (m.store i v).InBounds size cells :=
  h.of_tape (by simp [h.tape]) m.console

theorem moveTo (h : m.InBounds size cells) {i : Nat} (hi : i < cells)
    (hfits : (i : Int) ≤ Word.greatest) : (m.moveTo i).InBounds size cells :=
  ⟨h.tape, .inl hi, h.counter, hfits⟩

theorem skip (h : m.InBounds size cells) {n : Nat} (hn : m.counter + n ≤ size) :
    (m.skip n).machine.InBounds size cells :=
  ⟨h.tape, h.pointer, hn, h.fits⟩

theorem jump (h : m.InBounds size cells) (target : Int) :
    (m.jump size target).machine.InBounds size cells := by
  unfold Machine.jump
  split
  · exact ⟨h.tape, h.pointer, by simp only [Progress.machine_running]; omega, h.fits⟩
  · exact h

/-- An instruction that is carried out on a cell of the tape keeps the machine within its bounds. -/
theorem perform (h : m.InBounds size cells) {op : Op} (hop : m.counter + op.width ≤ size)
    (eof : EofPolicy) {i : Nat} (hi : i < cells) (hfits : (i : Int) ≤ Word.greatest) :
    (m.perform size eof i op).machine.InBounds size cells := by
  cases op with
  | change o x => exact (h.store i _).skip hop
  | set o x => exact (h.store i _).skip hop
  | input o =>
    have hread := h.of_tape h.tape m.console.readByte.2
    simp only [Machine.perform, readInto]
    split
    · exact (hread.store i _).skip hop
    · exact (hread.store i _).skip hop
    · exact hread
    · exact hread
  | output o =>
    have hpush := h.of_tape h.tape (m.console.push (m.value i)).2
    simp only [Machine.perform, writeFrom]
    split
    · exact hpush.skip hop
    · exact hpush
  | jumpIfZero o x =>
    simp only [Machine.perform]
    split
    · exact (h.moveTo hi hfits).jump _
    · exact (h.moveTo hi hfits).skip hop
  | jumpIfNotZero o x =>
    simp only [Machine.perform]
    split
    · exact (h.moveTo hi hfits).skip hop
    · exact (h.moveTo hi hfits).jump _

end InBounds

variable {code : Array Word} {settings : Settings} {cells : Nat} {m : Machine}

/-- What is known of an instruction that a step will carry out. -/
theorem of_plan_carryOut {i : Nat} {op : Op} (h : m.plan code settings = .carryOut i op) :
    fetch code m.counter = some op ∧ m.cell op.offset = .ok i := by
  unfold plan at h
  split at h
  · cases h
  · cases h
  · cases h
  · rename_i op' _ _ hfetch
    cases hcell : m.cell op'.offset with
    | ok j =>
      simp only [hcell, Plan.carryOut.injEq] at h
      obtain ⟨rfl, rfl⟩ := h
      exact ⟨hfetch, hcell⟩
    | error fault => simp [hcell] at h

/-- **Every step keeps the machine within its bounds**, whatever the code. -/
theorem InBounds.step (h : m.InBounds code.size cells) (settings : Settings) :
    (m.step code settings).machine.InBounds code.size cells := by
  rw [step_eq_plan]
  cases hplan : m.plan code settings with
  | stop fault => exact h
  | miss fault => exact h.counted
  | carryOut i op =>
    obtain ⟨hfetch, hcell⟩ := of_plan_carryOut hplan
    have hi : i < m.tape.size := (locate_eq_ok hcell).1
    rw [h.tape] at hi
    exact h.counted.perform (add_width_le_of_fetch hfetch) settings.eof hi
      (le_greatest_of_locate hcell)

theorem InBounds.advance (h : m.InBounds code.size cells) (settings : Settings) (n : Nat) :
    (advance code settings n m).machine.InBounds code.size cells := by
  induction n generalizing m with
  | zero => exact h
  | succ n ih =>
    have hstep := h.step settings
    rw [Machine.advance]
    cases hm : m.step code settings with
    | running m' =>
      rw [hm] at hstep
      exact ih hstep
    | halted fault e =>
      rw [hm] at hstep
      exact hstep

/-! ## A step that checks every access -/

/-- Stores a value in a cell, which has to be on the tape. -/
def storeChecked (m : Machine) (i : Nat) (v : UInt8) : Option Machine :=
  if h : i < m.tape.size then some { m with tape := m.tape.set i v h } else none

/-- Jumps from the end of the jump's own encoding, by the distance that is its second operand. The
end of the encoding has to be a word. The target need not be one, for it is checked by the machine. -/
def jumpChecked (m : Machine) (code : Array Word) (target : Word → Word → Int) :
    Option Progress := do
  let distance ← code[m.counter + 2]?
  let next ← Word.checked (m.counter + 3)
  match Word.checked (target next distance) with
  | none => return .halted (some (.invalidJump m.counter)) m
  | some target => return m.jump code.size target

/-- Carries out an instruction on the cell `i`, which has to be on the tape. -/
def performChecked (m : Machine) (code : Array Word) (eof : EofPolicy) (i : Nat) :
    Opcode → Option Progress
  | .change => do
    let v ← m.tape[i]?
    let amount ← code[m.counter + 2]?
    let m ← m.storeChecked i (v + Word.byte amount)
    return m.skip 3
  | .set => do
    let v ← code[m.counter + 2]?
    let m ← m.storeChecked i (Word.byte v)
    return m.skip 3
  | .input => do
    let (result, console) := m.console.readByte
    let m := { m with console }
    match result, eof with
    | .ok (some b), _ => return (← m.storeChecked i b).skip 2
    | .ok none, .sentinel v => return (← m.storeChecked i v).skip 2
    | .ok none, .fail => return .halted (some .inputExhausted) m
    | .error e, _ => return .halted (some (.io e)) m
  | .output => do
    let v ← m.tape[i]?
    let (result, console) := m.console.push v
    let m := { m with console }
    match result with
    | .ok () => return m.skip 2
    | .error e => return .halted (some (.io e)) m
  | .jumpIfZero => do
    let v ← m.tape[i]?
    let m := m.moveTo i
    if v = 0 then m.jumpChecked code (· + ·) else return m.skip 3
  | .jumpIfNotZero => do
    let v ← m.tape[i]?
    let m := m.moveTo i
    if v = 0 then return m.skip 3 else m.jumpChecked code (· - ·)

/-- Decodes and carries out the instruction at the counter. Its operands are read only where the
code is long enough to have them, and the pointer has to be a word when the offset is added to it. -/
def executeChecked (m : Machine) (code : Array Word) (eof : EofPolicy) : Option Progress := do
  let word ← code[m.counter]?
  match Opcode.ofWord? word with
  | none => return .halted (some (.invalidOpcode m.counter word)) m
  | some opcode =>
    if code.size < m.counter + opcode.width then
      return .halted (some (.invalidOpcode m.counter word)) m
    else
      let m := m.counted
      let offset ← code[m.counter + 1]?
      let pointer ← Word.checked m.pointer
      match locate m.tape.size (pointer + offset) with
      | .ok i => m.performChecked code eof i opcode
      | .error fault => return .halted (some fault) m

/-- Makes one step, with each access checked on its own. There is no result if the step uses a cell
or a word of the code that does not exist, or takes a number for a word that is none. -/
def stepChecked (m : Machine) (code : Array Word) (settings : Settings) : Option Progress :=
  if m.counter < code.size then
    match settings.cutOff? m.steps with
    | some fault => some (.halted (some fault) m)
    | none => m.executeChecked code settings.eof
  else some (.halted none m)

/-- Makes `n` steps with each access checked, or fewer if the run is over before. -/
def advanceChecked (code : Array Word) (settings : Settings) : Nat → Machine → Option Progress
  | 0, m => some (.running m)
  | n + 1, m => do
    match ← m.stepChecked code settings with
    | .running m => advanceChecked code settings n m
    | .halted fault m => return .halted fault m

theorem storeChecked_eq {i : Nat} (hi : i < m.tape.size) (v : UInt8) :
    m.storeChecked i v = some (m.store i v) := by
  simp [storeChecked, store, hi, Array.setIfInBounds]

theorem getElem?_tape {i : Nat} (hi : i < m.tape.size) : m.tape[i]? = some (m.value i) := by
  simp [value, hi]

theorem jumpChecked_eq {distance : Word} (hdistance : code[m.counter + 2]? = some distance)
    (hend : m.counter + 3 ≤ code.size) (hcode : (code.size : Int) ≤ Word.greatest)
    (target : Word → Word → Int) :
    m.jumpChecked code target = some (m.jump code.size (target (m.counter + 3) distance)) := by
  have hnext : Word.checked (m.counter + 3) = some (m.counter + 3) :=
    Word.checked_natCast (n := m.counter + 3) (by omega)
  rw [jump_eq_checked m _ hcode]
  simp only [jumpChecked, hdistance, hnext, Option.bind_eq_bind, Option.bind_some]
  split <;> simp_all

/-- Carrying out an instruction uses no cell and no operand that does not exist. -/
theorem performChecked_eq {op : Op} (hop : fetch code m.counter = some op)
    (hcode : (code.size : Int) ≤ Word.greatest) (eof : EofPolicy) {i : Nat}
    (hi : i < m.tape.size) :
    m.performChecked code eof i op.opcode = some (m.perform code.size eof i op) := by
  have hend := add_width_le_of_fetch hop
  cases op with
  | change o x =>
    have hx := getElem?_of_fetch hop (k := 2) rfl
    simp [performChecked, perform, Op.opcode, getElem?_tape hi, hx, storeChecked_eq hi]
  | set o x =>
    have hx := getElem?_of_fetch hop (k := 2) rfl
    simp [performChecked, perform, Op.opcode, hx, storeChecked_eq hi]
  | input o =>
    rcases hread : m.console.readByte with ⟨result, console⟩
    have hstore (v : UInt8) := storeChecked_eq (m := { m with console }) hi v
    simp only [performChecked, perform, readInto, Op.opcode, hread]
    split <;> simp [hstore]
  | output o =>
    rcases hpush : m.console.push (m.value i) with ⟨result, console⟩
    simp only [performChecked, perform, writeFrom, Op.opcode, getElem?_tape hi, hpush,
      Option.bind_eq_bind, Option.bind_some]
    split <;> simp
  | jumpIfZero o x =>
    have hx := getElem?_of_fetch hop (k := 2) rfl
    have hjump := jumpChecked_eq (m := m.moveTo i) hx hend hcode (· + ·)
    simp only [performChecked, perform, Op.opcode, getElem?_tape hi, Option.bind_eq_bind,
      Option.bind_some]
    split
    · exact hjump
    · rfl
  | jumpIfNotZero o x =>
    have hx := getElem?_of_fetch hop (k := 2) rfl
    have hjump := jumpChecked_eq (m := m.moveTo i) hx hend hcode (· - ·)
    simp only [performChecked, perform, Op.opcode, getElem?_tape hi, Option.bind_eq_bind,
      Option.bind_some]
    split
    · rfl
    · exact hjump

theorem executeChecked_eq (h : m.InBounds code.size cells)
    (hcode : (code.size : Int) ≤ Word.greatest) (eof : EofPolicy) {word : Word}
    (hword : code[m.counter]? = some word) :
    m.executeChecked code eof = some (m.execute code eof word) := by
  cases hfetch : fetch code m.counter with
  | none =>
    simp only [executeChecked, execute, hword, hfetch, Option.bind_eq_bind, Option.bind_some]
    cases hopcode : Opcode.ofWord? word with
    | none => rfl
    | some opcode =>
      -- an opcode that starts no instruction has lost some of its operands
      have hcut : code.size < m.counter + opcode.width := by
        by_contra hle
        obtain ⟨op, hop⟩ := exists_fetch hword hopcode (Nat.le_of_not_lt hle)
        simp [hop] at hfetch
      simp [hcut]
  | some op =>
    have hend := add_width_le_of_fetch hfetch
    have hoffset : code[m.counter + 1]? = some op.offset := by
      apply getElem?_of_fetch hfetch
      cases op <;> rfl
    have hfirst := getElem?_of_fetch hfetch (k := 0) rfl
    rw [Nat.add_zero, hword] at hfirst
    obtain rfl := Option.some.inj hfirst
    have hwidth : ¬code.size < m.counter + op.opcode.width := Nat.not_lt.mpr hend
    simp only [executeChecked, execute, hword, hfetch, Opcode.ofWord?_word, hwidth, counted, hoffset,
      Word.checked_natCast h.fits, cell, Option.bind_eq_bind, Option.bind_some, ↓reduceIte]
    cases hcell : locate m.tape.size (m.pointer + op.offset) with
    | error fault => rfl
    | ok i =>
      exact performChecked_eq (m := m.counted) hfetch hcode eof (locate_eq_ok hcell).1

/-- **A step uses no cell and no word of the code that does not exist**, and takes no number for a
word that is none. -/
theorem stepChecked_eq_step (h : m.InBounds code.size cells)
    (hcode : (code.size : Int) ≤ Word.greatest) :
    m.stepChecked code settings = some (m.step code settings) := by
  rw [step_eq_cutOff, stepChecked]
  by_cases hend : m.counter < code.size
  · have hword : code[m.counter]? = some code[m.counter] := Array.getElem?_eq_getElem hend
    simp only [hend, hword, ↓reduceIte]
    cases settings.cutOff? m.steps with
    | some fault => rfl
    | none => exact executeChecked_eq h hcode settings.eof hword
  · simp [hend]

theorem advanceChecked_eq_advance (h : m.InBounds code.size cells)
    (hcode : (code.size : Int) ≤ Word.greatest) (n : Nat) :
    advanceChecked code settings n m = some (advance code settings n m) := by
  induction n generalizing m with
  | zero => rfl
  | succ n ih =>
    have hstep := h.step settings
    simp only [advanceChecked, Machine.advance, stepChecked_eq_step h hcode, Option.bind_eq_bind,
      Option.bind_some]
    cases hm : m.step code settings with
    | running m' =>
      rw [hm] at hstep
      exact ih hstep
    | halted fault e => rfl

/-- The last write moves nothing but bytes. -/
theorem InBounds.finish {size : Nat} (h : m.InBounds size cells) (fault : Option Fault) :
    (m.finish fault).2.InBounds size cells := by
  rw [finish_snd]
  exact h.of_tape h.tape _

end Machine

/-! ## Whole executions -/

/-- Executing code has an answer: the machine can be set up, and its run comes to an end, with or
without a fault, or goes on for ever. -/
def Answers (code : Bytecode) (settings : Settings) (streams : Streams) : Prop :=
  ∃ start, Machine.load? settings streams = some start ∧
    ((∃ cause last, Machine.Halts code.toArray settings start cause last) ∨
      Machine.RunsForever code.toArray settings start)

/-- Code has an answer exactly if the machine can be set up: nothing that happens on a run leaves it
without one. -/
theorem answers_iff (code : Bytecode) (settings : Settings) (streams : Streams) :
    Answers code settings streams ↔ settings.allocatable = true := by
  unfold Answers
  rw [Machine.load?_eq]
  constructor
  · rintro ⟨start, hload, -⟩
    by_contra hlarge
    rw [if_neg hlarge] at hload
    cases hload
  · intro hsettings
    refine ⟨.load settings streams, if_pos hsettings, ?_⟩
    rcases executes_or_runsForever code settings streams with
      ⟨-, -, cause, last, hhalts, -⟩ | hforever
    · exact .inl ⟨cause, last, hhalts⟩
    · exact .inr hforever

/-- **The machine is safe on any code, once it has been set up.** In every machine that a run comes
to, and in the one that an execution leaves, the tape has its size, the pointer is on the tape (or
where it was at first), and the counter is at most the end of the code. As long as the length of the
code is a word, which that of any code in memory is, a run in which every access is checked goes like
the run itself: no cell and no word of the code is used that does not exist, and no sum is used
unchecked that is not a word.

So code is executed to an end, with or without a fault, or runs for ever, provided that the tape and
the output buffer are not too large to be allocated. If they are, there is no answer at all. -/
theorem machine_safe (code : Bytecode) (settings : Settings) (streams : Streams) :
    (∀ n, (Machine.advance code.toArray settings n (.load settings streams)).machine.InBounds
      code.length settings.tapeSize) ∧
    (∀ fault m, Executes code settings streams fault m →
      m.InBounds code.length settings.tapeSize) ∧
    ((code.length : Int) ≤ Word.greatest → ∀ n,
      Machine.advanceChecked code.toArray settings n (.load settings streams) =
        some (Machine.advance code.toArray settings n (.load settings streams))) ∧
    (settings.allocatable = true →
      Machine.load? settings streams = some (.load settings streams) ∧
        Answers code settings streams) ∧
    (settings.allocatable = false → ¬Answers code settings streams) := by
  have hload := Machine.inBounds_load code.toArray.size settings streams
  have hrun (n : Nat) := hload.advance settings n
  refine ⟨hrun, ?_, ?_, ?_, ?_⟩
  · rintro fault m ⟨cause, last, ⟨n, hn⟩, hfinish⟩
    have hlast := hrun n
    rw [hn, Progress.machine_halted] at hlast
    have hm := hlast.finish cause
    rwa [hfinish] at hm
  · intro hcode n
    exact Machine.advanceChecked_eq_advance hload hcode n
  · intro hsettings
    exact ⟨by rw [Machine.load?_eq, if_pos hsettings], (answers_iff _ _ _).mpr hsettings⟩
  · intro hlarge hanswers
    exact Bool.false_ne_true (hlarge.symm.trans ((answers_iff _ _ _).mp hanswers))

/-- The code moves the pointer by one cell and then adds the greatest word to it. -/
theorem machine_safe_of_far_offset :
    (∃ m, Machine.advanceChecked #[5, 1, 0, 3, Word.greatest, 1] { tapeSize := 2 } 2
        (.load { tapeSize := 2 } {}) = some (.halted (some (.tapeOutOfBounds Word.greatest)) m) ∧
      m.pointer = 1) ∧
    Answers [5, 1, 0, 3, Word.greatest, 1] { tapeSize := 2 } {} := by
  obtain ⟨-, -, hchecked, hanswers, -⟩ :=
    machine_safe [5, 1, 0, 3, Word.greatest, 1] { tapeSize := 2 } {}
  exact ⟨⟨_, hchecked (by decide) 2, rfl⟩, (hanswers (by decide)).2⟩

/-- A write of one cell has no answer if the output buffer is to hold `2 ^ 63` bytes, although one
would do. -/
theorem unanswered_of_large_threshold :
    ¬Answers [2, 0] { tapeSize := 1, flushThreshold := 9223372036854775807 } {} := by
  rw [answers_iff]
  decide

end Tapecode
