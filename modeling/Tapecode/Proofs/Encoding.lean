import Tapecode.Proofs.Layout
import Tapecode.Proofs.Matching

/-!
# The encoding of programs

The bytecode of a balanced program is made of one encoding for each of its instructions
(`Nest.encode_eq_flatten`), and nothing of the program is lost in it.

* `Program.assemble` lays the words out in one pass over the instructions. The distance of a loop
  start is not known when its words are written, so its place is left blank and filled in at the end
  of the loop. This comes to the same code as writing out the nest (`Program.assemble_eq_compile`).
* The two jumps of a loop carry the same distance, and each of them leads behind the other
  (`Program.IsLoop.joins`). This needs that the partner of a loop delimiter is unique.
* `Bytecode.decode` reads the instructions back from the first address on, each of them behind the
  words of the one before it (`Nest.decode_encode`).
-/

namespace Tapecode

open Machine

/-! ## Partners -/

namespace Brackets

variable {α : Type} {weight : α → Int} {xs xs' ys ys' : List α} {t t' : α}

/-- The end of a loop is found behind balanced items. -/
theorem eq_of_append_end (hxs : Balanced weight xs) (hxs' : Balanced weight xs')
    (ht : weight t = -1) (ht' : weight t' = -1) (h : xs ++ t :: ys = xs' ++ t' :: ys') :
    xs = xs' := by
  have hlonger {us vs : List α} {r : α} (hus : Balanced weight us) (hr : weight r = -1)
      (h : Balanced weight (us ++ r :: vs)) : False := by
    have hneg := h.inside (us ++ [r]) ⟨vs, by simp⟩
    rw [height_append, height_cons, height_nil, hus.level, hr] at hneg
    omega
  rcases append_cons_cases h with ⟨c, rfl, -⟩ | ⟨rfl, -, -⟩ | ⟨c, rfl, -⟩
  · exact (hlonger hxs' ht' hxs).elim
  · rfl
  · exact (hlonger hxs ht hxs').elim

/-- The start of a loop is found before balanced items. -/
theorem eq_of_start_append (hxs : Balanced weight xs) (hxs' : Balanced weight xs')
    (ht : weight t = 1) (ht' : weight t' = 1) (h : ys ++ t :: xs = ys' ++ t' :: xs') :
    xs = xs' := by
  have hlonger {us vs : List α} {r : α} (hus : Balanced weight us) (hr : weight r = 1)
      (h : Balanced weight (vs ++ r :: us)) : False :=
    h.not_hasOpen ⟨vs, r, us, rfl, hr, hus.inside⟩
  rcases append_cons_cases h with ⟨c, -, rfl⟩ | ⟨-, -, rfl⟩ | ⟨c, -, rfl⟩
  · exact (hlonger hxs ht hxs').elim
  · rfl
  · exact (hlonger hxs' ht' hxs).elim

end Brackets

/-! ## One encoding for each instruction -/

/-- The words of an instruction: its opcode, the offset of its cell and, for all but input and
output, one more operand. Loop delimiters carry a distance. -/
def Instruction.encoding (distance : Word) : Instruction → List Word
  | act .input o => [Opcode.input.word, o]
  | act .output o => [Opcode.output.word, o]
  | act (.change delta) o => [Opcode.change.word, o, delta.toInt]
  | act (.set value) o => [Opcode.set.word, o, value.toInt]
  | enter o => [Opcode.jumpIfZero.word, o, distance]
  | leave o => [Opcode.jumpIfNotZero.word, o, distance]

theorem Effect.words_op (e : Effect) (o : Int) (distance : Word) :
    (e.op o).words = (Instruction.act e o).encoding distance := by
  cases e <;> rfl

namespace Nest

/-- The distances in the words of a nest, one for each instruction. There is none in the words of an
effect. -/
def distances : Nest → List Word
  | done => []
  | act _ _ rest => 0 :: rest.distances
  | loop _ body _ rest =>
    let distance : Word := body.encode.length + 3
    distance :: (body.distances ++ distance :: rest.distances)

theorem length_distances (n : Nest) : n.distances.length = n.program.length := by
  induction n with
  | done => rfl
  | act e o rest ih => simp [distances, program, ih]
  | loop entry body exit rest ihBody ihRest => simp [distances, program, ihBody, ihRest]

/-- **The words of a nest are those of its instructions**, one after the other. -/
theorem encode_eq_flatten (n : Nest) :
    n.encode = (List.zipWith Instruction.encoding n.distances n.program).flatten := by
  induction n with
  | done => rfl
  | act e o rest ih =>
    rw [encode, ih, e.words_op o 0]
    rfl
  | loop entry body exit rest ihBody ihRest =>
    rw [distances, program, List.zipWith_cons_cons, List.zipWith_append body.length_distances,
      List.zipWith_cons_cons, List.flatten_cons, List.flatten_append, List.flatten_cons, ← ihBody,
      ← ihRest]
    rfl

end Nest

/-! ## One pass -/

/-- Code that is laid out from its start. -/
structure Draft where
  words : Bytecode := []
  /-- The places of the distances that are not known yet, innermost loop first. -/
  blanks : List Nat := []

/-- Adds the words of an instruction. The end of a loop fills in both distances of the loop. -/
def Draft.add (d : Draft) : Instruction → Except NestError Draft
  | .act e o => .ok { d with words := d.words ++ (Instruction.act e o).encoding 0 }
  | .enter o =>
    let words := d.words ++ (Instruction.enter o).encoding 0
    .ok { words, blanks := (words.length - 1) :: d.blanks }
  | .leave o =>
    match d.blanks with
    | [] => .error .unmatchedLoopEnd
    | start :: blanks =>
      let words := d.words ++ (Instruction.leave o).encoding 0
      let stop := words.length - 1
      let distance : Word := (stop - start : Nat)
      .ok { words := (words.set start distance).set stop distance, blanks }

/-- The code of a program, laid out in one pass. -/
def Program.assemble (p : Program) : Except NestError Bytecode :=
  match p.foldlM Draft.add {} with
  | .error e => .error e
  | .ok d => if d.blanks.isEmpty then .ok d.words else .error .unclosedLoop

namespace Draft

variable (d : Draft)

theorem add_enter (o : Int) :
    d.add (.enter o) = .ok
      { words := d.words ++ (Instruction.enter o).encoding 0
        blanks := (d.words.length + 2) :: d.blanks } := by
  simp [add, Instruction.encoding]

/-- The end of a loop fills in the blank of its start, and leaves all other words as they are. -/
theorem add_leave (words inner : Bytecode) (blanks : List Nat) (entry exit : Int) :
    add { words := words ++ (Instruction.enter entry).encoding 0 ++ inner
          blanks := (words.length + 2) :: blanks } (.leave exit) =
      .ok { words := words ++ ((Op.jumpIfZero entry (inner.length + 3)).words ++
              (inner ++ (Op.jumpIfNotZero exit (inner.length + 3)).words)), blanks } := by
  have hstop : (words ++ (Instruction.enter entry).encoding 0 ++ inner ++
      (Instruction.leave exit).encoding 0).length - 1 = words.length + (inner.length + 5) := by
    simp [Instruction.encoding]
  have hdistance : words.length + (inner.length + 5) - (words.length + 2) = inner.length + 3 := by
    omega
  simp only [add, hstop, hdistance]
  simp [Instruction.encoding, Op.words, Op.operands, Op.opcode, List.set_append_right]

/-- A nest adds its own words, and leaves what was written before as it is. -/
theorem foldlM_add (n : Nest) :
    n.program.foldlM add d = .ok { d with words := d.words ++ n.encode } := by
  induction n generalizing d with
  | done => simp [Nest.program, Nest.encode, pure, Except.pure]
  | act e o rest ih =>
    rw [Nest.program, List.foldlM_cons, add, Nest.encode, e.words_op o 0, ← List.append_assoc]
    exact ih _
  | loop entry body exit rest ihBody ihRest =>
    rw [Nest.program, List.foldlM_cons, add_enter]
    simp only [bind, Except.bind, List.foldlM_append, ihBody, List.foldlM_cons, add_leave, ihRest]
    simp [Nest.encode, Opcode.width]

/-- The blanks are those of the open loops. -/
theorem counts : Brackets.Counts Instruction.weight add (fun _ => True) (·.blanks.length)
    .unmatchedLoopEnd where
  refuses d i _ hi hd := by
    cases i with
    | leave o => simp only [add, List.length_eq_zero_iff.mp hd]
    | act e o => cases hi
    | enter o => cases hi
  takes d i _ hi := by
    cases i with
    | act e o => exact ⟨_, rfl, trivial, by simp [Instruction.weight]⟩
    | enter o => exact ⟨_, rfl, trivial, by simp [Instruction.weight]⟩
    | leave o =>
      rcases hblanks : d.blanks with _ | ⟨start, blanks⟩
      · exact absurd (by simp [hblanks]) (hi rfl)
      · refine ⟨_, by simp only [add, hblanks]; rfl, trivial, ?_⟩
        simp only [Instruction.weight, List.length_cons]
        omega

end Draft

/-- **Filling in distances in one pass comes to the same code**, and fails for the same reasons. -/
theorem Program.assemble_eq_compile (p : Program) : p.assemble = p.compile := by
  unfold Program.assemble Program.compile
  rcases Nest.ofProgram?_judged p with
    ⟨hinside, _, rfl, hread⟩ | ⟨hinside, hheight, _, rfl, hread⟩ | ⟨-, n, hread⟩
  · rw [Brackets.inside_iff] at hinside
    rcases Draft.counts.foldlM_cases (s := {}) trivial p with ⟨-, hfold⟩ | ⟨hcovered, -⟩
    · rw [hfold, hread]
      rfl
    · exact absurd hcovered hinside
  · rw [Brackets.inside_iff] at hinside
    rcases Draft.counts.foldlM_cases (s := {}) trivial p with ⟨hcovered, -⟩ | ⟨-, d, hfold, -, hd⟩
    · exact absurd hinside hcovered
    · have hopen : d.blanks.isEmpty = false := by
        rw [List.isEmpty_eq_false_iff, ne_eq, ← List.length_eq_zero_iff]
        simp only [List.length_nil] at hd
        omega
      rw [hfold, hread]
      simp [hopen, Except.map]
  · obtain rfl := Nest.ofProgram?_eq_ok_iff.mp hread
    rw [hread, Draft.foldlM_add {} n]
    simp [Except.map]

/-! ## Loops -/

/-- The jumps of a loop. -/
structure Bytecode.Joins (code : Bytecode) (start stop : Nat) (entry exit distance : Word) :
    Prop where
  enter : fetch code.toArray start = some (.jumpIfZero entry distance)
  leave : fetch code.toArray stop = some (.jumpIfNotZero exit distance)
  /-- The jump at the start of the loop, when it is taken, leads behind the one at its end. -/
  forth : ∀ (m : Machine) (eof : EofPolicy) (i : Nat), m.counter = start → m.value i = 0 →
    m.perform code.length eof i (.jumpIfZero entry distance) =
      .running { m with pointer := i, counter := stop + Opcode.jumpIfNotZero.width }
  /-- The jump at the end of the loop, when it is taken, leads behind the one at its start. -/
  back : ∀ (m : Machine) (eof : EofPolicy) (i : Nat), m.counter = stop → m.value i ≠ 0 →
    m.perform code.length eof i (.jumpIfNotZero exit distance) =
      .running { m with pointer := i, counter := start + Opcode.jumpIfZero.width }

/-- A jump whose target is the end of the code or an address in it. -/
theorem Machine.jump_eq_running (m : Machine) {size next : Nat} {target : Int}
    (htarget : target = next) (hnext : next ≤ size) :
    m.jump size target = .running { m with counter := next } := by
  subst htarget
  rw [jump, if_pos ⟨Int.natCast_nonneg next, Int.ofNat_le.mpr hnext⟩, Int.toNat_natCast]

/-- The program has a loop behind `before`, with this body. -/
structure Program.IsLoop (p before : Program) (entry : Int) (body : Program) (exit : Int)
    (after : Program) : Prop where
  eq : p = before ++ .enter entry :: (body ++ .leave exit :: after)
  balanced : body.Balanced

/-- **The jumps of a loop lead behind each other.** -/
theorem Program.IsLoop.joins {n : Nest} {before body after : Program} {entry exit : Int}
    (h : Program.IsLoop n.program before entry body exit after) :
    n.encode.Joins before.width (Program.width (before ++ .enter entry :: body)) entry exit
      (body.width + 3 : Nat) := by
  have hbody := Program.balanced_iff.mp h.balanced
  have hend : n.program = (before ++ .enter entry :: body) ++ .leave exit :: after := by
    simp [h.eq]
  have hstop : Program.width (before ++ .enter entry :: body) = before.width + 3 + body.width := by
    simp
    omega
  have hsize : before.width + 3 + body.width + 3 ≤ n.encode.length := by
    rw [n.length_encode, h.eq]
    simp
    omega
  obtain ⟨op, hplaced, hop⟩ := n.exists_placed_of_program h.eq
  obtain ⟨op', hplaced', hop'⟩ := n.exists_placed_of_program hend
  cases hop with
  | enter _ exit' body' after' hbody' hsplit =>
    obtain rfl := Brackets.eq_of_append_end hbody (Program.balanced_iff.mp hbody') rfl rfl hsplit
    cases hop' with
    | leave _ entry' outer body' hbody' hsplit' =>
      obtain rfl :=
        Brackets.eq_of_start_append hbody (Program.balanced_iff.mp hbody') rfl rfl hsplit'
      refine ⟨hplaced.fetch, hplaced'.fetch, ?_, ?_⟩
      · intro m eof i hcounter hzero
        have htarget : (before.width : Int) + 3 + (body.width + 3 : Nat) =
            (before.width + 3 + body.width + 3 : Nat) := by
          push_cast
          omega
        rw [Machine.perform, if_pos hzero, hcounter, hstop]
        exact (m.moveTo i).jump_eq_running htarget hsize
      · intro m eof i hcounter hcell
        have htarget : ((before.width + 3 + body.width : Nat) : Int) + 3 - (body.width + 3 : Nat) =
            (before.width + 3 : Nat) := by
          push_cast
          omega
        have hinside : before.width + 3 ≤ n.encode.length := by omega
        rw [Machine.perform, if_neg hcell, hcounter, hstop]
        exact (m.moveTo i).jump_eq_running htarget hinside

/-! ## Reading back -/

/-- The instruction of a program that a machine instruction stands for. -/
def Op.instruction : Op → Instruction
  | input o => .act .input o
  | output o => .act .output o
  | change o amount => .act (.change (Int8.ofInt amount)) o
  | set o value => .act (.set (Int8.ofInt value)) o
  | jumpIfZero o _ => .enter o
  | jumpIfNotZero o _ => .leave o

@[simp] theorem Effect.instruction_op (e : Effect) (o : Int) : (e.op o).instruction = .act e o := by
  cases e <;> simp [Effect.op, Op.instruction]

theorem Op.width_pos (op : Op) : 0 < op.width := by
  cases op <;> exact Nat.succ_pos _

namespace Bytecode

/-- The instructions of the code from an address on, each of them behind the words of the one before
it. -/
def decodeFrom (code : Array Word) (address : Nat) : Option Program :=
  if address < code.size then
    match fetch code address with
    | none => none
    | some op => (decodeFrom code (address + op.width)).map (op.instruction :: ·)
  else some []
termination_by code.size - address
decreasing_by
  have := op.width_pos
  omega

/-- The program whose instructions stand in the code. -/
def decode (code : Bytecode) : Option Program :=
  decodeFrom code.toArray 0

variable {code : Array Word} {address : Nat}

theorem decodeFrom_of_placed {op : Op} (h : Placed code address op.words) :
    decodeFrom code address = (decodeFrom code (address + op.width)).map (op.instruction :: ·) := by
  have hlt : address < code.size := by
    have hle := h.add_length_le
    rw [Op.length_words] at hle
    have := op.width_pos
    omega
  rw [decodeFrom, if_pos hlt, h.fetch]

theorem decodeFrom_of_le (h : code.size ≤ address) : decodeFrom code address = some [] := by
  rw [decodeFrom, if_neg (by omega)]

end Bytecode

namespace Nest

/-- The words of a nest are read as its instructions, and what follows them is read next. -/
theorem decodeFrom_encode (n : Nest) {code : Array Word} {address : Nat}
    (h : Placed code address n.encode) :
    Bytecode.decodeFrom code address =
      (Bytecode.decodeFrom code (address + n.encode.length)).map (n.program ++ ·) := by
  induction n generalizing address with
  | done => simp [encode, program]
  | act e o rest ih =>
    rw [Bytecode.decodeFrom_of_placed h.left, ← Op.length_words, ih h.right, encode,
      List.length_append, ← Nat.add_assoc, Option.map_map]
    simp [program, Function.comp_def]
  | loop entry body exit rest ihBody ihRest =>
    obtain ⟨henter, hbody, hleave, hrest⟩ := placed_loop h
    have hend : address + 3 + (body.encode.length + 3) + rest.encode.length =
        address + (loop entry body exit rest).encode.length := by
      rw [length_encode_loop]
      omega
    rw [Bytecode.decodeFrom_of_placed henter]
    change Option.map _ (Bytecode.decodeFrom code (address + 3)) = _
    rw [ihBody hbody, Bytecode.decodeFrom_of_placed hleave]
    change Option.map _ (Option.map _ (Option.map _ (Bytecode.decodeFrom code
      (address + 3 + (body.encode.length + 3))))) = _
    rw [ihRest hrest, hend]
    simp [program, Function.comp_def, Op.instruction]

/-- **Reading back finds the instructions of the nest.** -/
theorem decode_encode (n : Nest) : n.encode.decode = some n.program := by
  rw [Bytecode.decode, n.decodeFrom_encode (.whole n.encode), Bytecode.decodeFrom_of_le (by simp)]
  simp

end Nest

/-! ## Whole programs -/

/-- **The encoding of a balanced program is exact and loses nothing.** The program compiles, and
laying its words out in one pass comes to the same code. The code is made of one encoding for each
instruction, in their order; the two jumps of each loop carry the same distance and lead behind each
other; and the program is read back from the code, so that no other program has it. -/
theorem Program.compile_exact :
    (∀ p : Program, p.Balanced → ∃ code, p.compile = .ok code ∧ p.assemble = .ok code ∧
      (∃ distances : List Word, distances.length = p.length ∧
        code = (List.zipWith Instruction.encoding distances p).flatten) ∧
      (∀ before entry body exit after, p.IsLoop before entry body exit after →
        ∃ distance, code.Joins before.width (Program.width (before ++ .enter entry :: body)) entry
          exit distance) ∧
      code.decode = some p) ∧
    ∀ p q : Program, p.Balanced → q.Balanced → p.compile = q.compile → p = q := by
  refine ⟨?_, ?_⟩
  · rintro _ ⟨n, rfl⟩
    refine ⟨n.encode, n.compile_program, ?_, ⟨n.distances, n.length_distances, n.encode_eq_flatten⟩,
      fun _ _ _ _ _ h => ⟨_, h.joins⟩, n.decode_encode⟩
    rw [Program.assemble_eq_compile, n.compile_program]
  · rintro _ _ ⟨n, rfl⟩ ⟨k, rfl⟩ h
    rw [n.compile_program, k.compile_program] at h
    have hdecode := n.decode_encode
    rw [Except.ok.inj h, k.decode_encode] at hdecode
    exact (Option.some.inj hdecode).symm

/-- A loop in a loop, with the least change and the greatest value of a byte. -/
theorem Program.compile_exact_of_nested_loops :
    ∃ code, Program.compile [.enter 1, .act (.change (-128)) 0, .enter (-2), .act .input 5,
        .leave 0, .leave 3, .act (.set 127) 0] = .ok code ∧
      code = [5, 1, 14, 3, 0, -128, 5, -2, 5, 1, 5, 6, 0, 5, 6, 3, 14, 4, 0, 127] ∧
      (∃ distance, code.Joins 6 11 (-2) 0 distance) ∧ (∃ distance, code.Joins 0 14 1 3 distance) ∧
      code.decode = some [.enter 1, .act (.change (-128)) 0, .enter (-2), .act .input 5, .leave 0,
        .leave 3, .act (.set 127) 0] ∧
      ∀ q : Program, q.Balanced → q.compile = .ok code →
        q = [.enter 1, .act (.change (-128)) 0, .enter (-2), .act .input 5, .leave 0, .leave 3,
          .act (.set 127) 0] := by
  obtain ⟨hexact, hunique⟩ := Program.compile_exact
  have hbalanced : Program.Balanced [.enter 1, .act (.change (-128)) 0, .enter (-2), .act .input 5,
      .leave 0, .leave 3, .act (.set 127) 0] :=
    ⟨.loop 1 (.act (.change (-128)) 0 (.loop (-2) (.act .input 5 .done) 0 .done)) 3
      (.act (.set 127) 0 .done), rfl⟩
  obtain ⟨code, hcode, -, -, hjoins, hdecode⟩ := hexact _ hbalanced
  refine ⟨code, hcode, (Except.ok.inj hcode).symm, ?_, ?_, hdecode, ?_⟩
  · exact hjoins [.enter 1, .act (.change (-128)) 0] (-2) [.act .input 5] 0
      [.leave 3, .act (.set 127) 0] ⟨rfl, .act .input 5 .done, rfl⟩
  · exact hjoins [] 1 [.act (.change (-128)) 0, .enter (-2), .act .input 5, .leave 0] 3
      [.act (.set 127) 0]
      ⟨rfl, .act (.change (-128)) 0 (.loop (-2) (.act .input 5 .done) 0 .done), rfl⟩
  · intro q hq hcompile
    exact hunique _ _ hq hbalanced (hcompile.trans hcode.symm)

end Tapecode
