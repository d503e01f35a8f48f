import Tapecode.Bytecode.Listing
import Tapecode.Proofs.Bounds
import Tapecode.Proofs.Encoding
import Tapecode.Proofs.PrintedText

/-!
# What a bytecode listing shows

A listing walks over the words of the code and works out the targets of jumps by itself. What can
be read off its lines (`Bytecode.Shown`) is nevertheless what the machine does.

* Each line is found again in the text (`Bytecode.lines_listing`), and the line of an instruction
  shows its address, its name, its operands and the target of a jump (`Shown.ofText?_whole`).
* An instruction that has a line is the one that the machine fetches at the address of the line
  (`Bytecode.fetch_of_mem_linesFrom`), so a jump that is taken leads to the target of its line if
  the target is in the code (`Machine.step_of_takesJump`).
* In the code of a balanced program there is one line for each instruction, in their order
  (`Bytecode.lines_encode`), and no jump leads out of the code (`Nest.landing_of_delimiter`).
-/

namespace Tapecode

/-! ## What a line shows -/

namespace Bytecode

/-- What can be read off a line of a listing. -/
structure Shown where
  address : Int
  mnemonic : String
  operands : List Int
  /-- Where a jump lands. -/
  target : Option Int
  deriving DecidableEq, Repr

/-- Reads a line. What stands behind an arrow is a target. -/
def Shown.ofText? (s : String) : Option Shown :=
  match Text.words s with
  | address :: mnemonic :: rest =>
    let operands := (rest.takeWhile (· ≠ "->")).map Text.number
    match rest.dropWhile (· ≠ "->") with
    | [] => some ⟨Text.number address, mnemonic, operands, none⟩
    | [_, target] => some ⟨Text.number address, mnemonic, operands, some (Text.number target)⟩
    | _ => none
  | _ => none

/-- What is to be read off the line of an instruction. -/
def Shown.ofOp (address : Nat) (op : Op) : Shown :=
  ⟨address, op.opcode.mnemonic, op.operands, landing? address op⟩

theorem words_operands (s : String) (operands : List Word) :
    Text.words (s ++ String.join (operands.map fun x => " " ++ Text.alignRight 4 (toString x))) =
      Text.words s ++ operands.map toString := by
  induction operands generalizing s with
  | nil => simp
  | cons x rest ih =>
    have hassoc (t : String) : s ++ (" " ++ Text.alignRight 4 (toString x) ++ t) =
        s ++ " " ++ Text.alignRight 4 (toString x) ++ t := by
      simp only [String.append_assoc]
    rw [List.map_cons, String.join_cons, hassoc, ih, Text.words_append_blank, Text.alignRight,
      Text.words_blanks_append, Text.words_toString, List.map_cons, List.append_assoc]
    rfl

theorem words_mnemonic (opcode : Opcode) : Text.words opcode.mnemonic = [opcode.mnemonic] := by
  cases opcode <;> decide

theorem words_arrow (s : String) (target : Int) :
    Text.words (s ++ ("  -> " ++ Text.zeroFill 4 target)) =
      Text.words s ++ ["->", Text.zeroFill 4 target] := by
  have hblanks : s ++ ("  -> " ++ Text.zeroFill 4 target) =
      s ++ " " ++ (" ->" ++ " " ++ Text.zeroFill 4 target) := by
    apply String.toList_injective
    simp
  have harrow : Text.words " ->" = ["->"] := by decide
  rw [hblanks, Text.words_append_blank, Text.words_append_blank, harrow, Text.words_zeroFill]
  rfl

/-- The words that stand behind the operands of an instruction. -/
def landingWords : Option Int → List String
  | some target => ["->", Text.zeroFill 4 target]
  | none => []

/-- The words of the line of an instruction. -/
theorem Line.words_text (address : Nat) (op : Op) :
    Text.words (Line.whole address op).text =
      Text.zeroFill 4 address :: op.opcode.mnemonic :: (op.operands.map toString ++
        landingWords (landing? address op)) := by
  have hfront : Text.words (Text.zeroFill 4 address ++ " " ++
      Text.alignLeft 4 op.opcode.mnemonic) = [Text.zeroFill 4 address, op.opcode.mnemonic] := by
    rw [Text.words_append_blank, Text.alignLeft, Text.words_append_blanks, words_mnemonic,
      Text.words_zeroFill]
    rfl
  rw [Line.text]
  cases landing? address op with
  | some target =>
    rw [words_arrow, words_operands, hfront, List.append_assoc]
    rfl
  | none =>
    rw [String.append_empty, words_operands, hfront]
    simp [landingWords]

theorem toString_ne_arrow (x : Int) : toString x ≠ "->" := by
  intro harrow
  have hmem : '>' ∈ (toString x).toList := by
    rw [harrow]
    decide
  exact Text.not_mem_toString_int (by decide) (by decide) x hmem

/-- A line is read by its words. -/
theorem Shown.ofText?_of_words {s address mnemonic : String} {operands : List String}
    {target : Option Int}
    (h : Text.words s = address :: mnemonic :: (operands ++ landingWords target))
    (hoperands : ∀ x ∈ operands, x ≠ "->") :
    Shown.ofText? s =
      some ⟨Text.number address, mnemonic, operands.map Text.number, target⟩ := by
  have hno : ∀ x ∈ operands, decide (x ≠ "->") = true := by simpa using hoperands
  rw [Shown.ofText?, h]
  simp only [List.takeWhile_append_of_pos hno, List.dropWhile_append_of_pos hno]
  cases target with
  | some target => simp [landingWords, Text.number_zeroFill]
  | none => simp [landingWords]

/-- **The line of an instruction shows the instruction.** -/
theorem Shown.ofText?_whole (address : Nat) (op : Op) :
    Shown.ofText? (Line.whole address op).text = some (.ofOp address op) := by
  have hread : (op.operands.map toString).map Text.number = op.operands := by
    rw [List.map_map]
    exact (List.map_congr_left fun x _ => Text.number_toString x).trans (List.map_id _)
  rw [Shown.ofText?_of_words (Line.words_text address op), hread, Text.number_zeroFill]
  · rfl
  · intro x hx
    obtain ⟨x, -, rfl⟩ := List.mem_map.mp hx
    exact toString_ne_arrow x

/-- No target is read off a line of three words. -/
theorem Shown.target_eq_none {address : Nat} {x y : String} {shown : Shown}
    (hx : Text.words x = [x]) (hy : Text.words y = [y]) (hne : y ≠ "->")
    (h : Shown.ofText? (Text.zeroFill 4 address ++ " " ++ (x ++ " " ++ y)) = some shown) :
    shown.target = none := by
  have hwords : Text.words (Text.zeroFill 4 address ++ " " ++ (x ++ " " ++ y)) =
      Text.zeroFill 4 address :: x :: ([y] ++ landingWords none) := by
    rw [Text.words_append_blank, Text.words_append_blank, Text.words_zeroFill, hx, hy]
    rfl
  rw [Shown.ofText?_of_words hwords (by simpa using hne)] at h
  rw [← Option.some.inj h]

/-- Only the line of an instruction shows a target. -/
theorem Shown.whole_of_target {l : Line} {shown : Shown} {t : Int}
    (h : Shown.ofText? l.text = some shown) (ht : shown.target = some t) :
    ∃ address op, l = .whole address op ∧ shown = .ofOp address op := by
  cases l with
  | whole address op =>
    rw [Shown.ofText?_whole] at h
    exact ⟨address, op, rfl, (Option.some.inj h).symm⟩
  | truncated address opcode =>
    have htext : (Line.truncated address opcode).text =
        Text.zeroFill 4 address ++ " " ++ (opcode.mnemonic ++ " " ++ "<truncated>") := by
      apply String.toList_injective
      simp [Line.text]
    rw [htext] at h
    rw [Shown.target_eq_none (words_mnemonic opcode) (by decide) (by decide) h] at ht
    cases ht
  | unknown address word =>
    have htext : (Line.unknown address word).text =
        Text.zeroFill 4 address ++ " " ++ ("???" ++ " " ++ toString word) := by
      apply String.toList_injective
      simp [Line.text]
    rw [htext] at h
    rw [Shown.target_eq_none (by decide) (Text.words_toString word) (toString_ne_arrow word) h]
      at ht
    cases ht

/-! ## The lines of a listing -/

theorem Line.oneLine_text (l : Line) : Text.OneLine l.text := by
  have hmnemonic (opcode : Opcode) : Text.OneLine opcode.mnemonic := by
    cases opcode <;> decide
  cases l with
  | whole address op =>
    have hoperands : Text.OneLine
        (String.join (op.operands.map fun x => " " ++ Text.alignRight 4 (toString x))) := by
      refine Text.oneLine_join fun s hs => ?_
      obtain ⟨x, -, rfl⟩ := List.mem_map.mp hs
      simp only [Text.oneLine_append, Text.oneLine_alignRight, Text.oneLine_toString_int, and_true]
      decide
    have hblank : Text.OneLine " " := by decide
    have harrow : Text.OneLine "  -> " := by decide
    have hempty : Text.OneLine "" := by decide
    rw [Line.text]
    cases landing? address op <;>
      simp only [Text.oneLine_append, Text.oneLine_zeroFill, Text.oneLine_alignLeft, hmnemonic,
        hoperands, hblank, harrow, hempty, and_self]
  | truncated address opcode =>
    simp only [Line.text, Text.oneLine_append, Text.oneLine_zeroFill, hmnemonic, true_and, and_true]
    decide
  | unknown address word =>
    simp only [Line.text, Text.oneLine_append, Text.oneLine_zeroFill, Text.oneLine_toString_int,
      true_and, and_true]
    decide

theorem Line.text_ne_empty (l : Line) : l.text ≠ "" := by
  intro hempty
  have hlist := congrArg String.toList hempty
  cases l <;> simp [Line.text, Text.zeroFill] at hlist

/-- **A listing has the lines that it is made of.** -/
theorem lines_listing (code : Bytecode) : Text.lines code.listing = code.lines.map Line.text := by
  refine Text.lines_intercalate ?_ ?_
  · intro s hs
    obtain ⟨l, -, rfl⟩ := List.mem_map.mp hs
    exact l.oneLine_text
  · intro s hs
    obtain ⟨l, -, rfl⟩ := List.mem_map.mp hs
    exact l.text_ne_empty

/-! ## Instructions in a listing -/

theorem linesFrom_words (address : Nat) (op : Op) (rest : Bytecode) :
    linesFrom address (op.words ++ rest) =
      .whole address op :: linesFrom (address + op.width) rest := by
  cases op <;> rfl

/-- Words begin with those of an instruction, or there is no instruction in their lines. -/
theorem linesFrom_cases (address : Nat) (ws : Bytecode) :
    (∃ (op : Op) (rest : Bytecode), ws = op.words ++ rest) ∨
      ∀ a op, Line.whole a op ∉ linesFrom address ws := by
  have hwhole (op : Op) (rest : Bytecode) {w : Word} (h : Opcode.ofWord? w = some op.opcode) :
      ∃ (op' : Op) (rest' : Bytecode), w :: (op.operands ++ rest) = op'.words ++ rest' := by
    refine ⟨op, rest, ?_⟩
    rw [Op.words, Opcode.word_of_ofWord? h, List.cons_append]
  unfold linesFrom
  split
  · simp
  · split
    · rename_i o rest h
      exact .inl (hwhole (.input o) rest h)
    · rename_i o rest h
      exact .inl (hwhole (.output o) rest h)
    · rename_i o x rest h
      exact .inl (hwhole (.change o x) rest h)
    · rename_i o x rest h
      exact .inl (hwhole (.set o x) rest h)
    · rename_i o x rest h
      exact .inl (hwhole (.jumpIfZero o x) rest h)
    · rename_i o x rest h
      exact .inl (hwhole (.jumpIfNotZero o x) rest h)
    · simp
    · simp

/-- **The lines of a listing show what the machine fetches.** -/
theorem fetch_of_mem_linesFrom {code : Array Word} {start a : Nat} {ws : Bytecode} {op : Op}
    (h : Placed code start ws) (hmem : Line.whole a op ∈ linesFrom start ws) :
    fetch code a = some op := by
  rcases linesFrom_cases start ws with ⟨op', rest, hws⟩ | hnone
  · rw [hws] at h
    rw [hws, linesFrom_words, List.mem_cons, Line.whole.injEq] at hmem
    rcases hmem with ⟨rfl, rfl⟩ | hmem
    · exact h.left.fetch
    · have hrest := h.right
      rw [Op.length_words] at hrest
      exact fetch_of_mem_linesFrom hrest hmem
  · exact absurd hmem (hnone a op)
termination_by ws.length
decreasing_by
  have hpos := op'.width_pos
  rw [hws, List.length_append, Op.length_words]
  omega

end Bytecode

/-! ## Programs -/

namespace Nest

/-- The machine instructions of a nest. -/
def ops : Nest → List Op
  | done => []
  | act e o rest => e.op o :: rest.ops
  | loop entry body exit rest =>
    let distance : Word := body.encode.length + Opcode.jumpIfNotZero.width
    .jumpIfZero entry distance :: (body.ops ++ .jumpIfNotZero exit distance :: rest.ops)

theorem encode_eq_flatMap (n : Nest) : n.encode = n.ops.flatMap Op.words := by
  induction n with
  | done => rfl
  | act e o rest ih => rw [encode, ops, List.flatMap_cons, ih]
  | loop entry body exit rest ihBody ihRest =>
    simp only [encode, ops, List.flatMap_cons, List.flatMap_append]
    rw [← ihBody, ← ihRest]

theorem map_instruction_ops (n : Nest) : n.ops.map Op.instruction = n.program := by
  induction n with
  | done => rfl
  | act e o rest ih => simp [ops, program, ih]
  | loop entry body exit rest ihBody ihRest =>
    simp [ops, program, ihBody, ihRest, Op.instruction]

end Nest

theorem Op.width_instruction (op : Op) : op.instruction.width = op.width := by
  cases op <;> rfl

namespace Bytecode

/-- Whole instructions have a line each. -/
theorem linesFrom_flatMap (address : Nat) (ops : List Op) (ws : Bytecode) :
    ∃ ls, ls.length = ops.length ∧ linesFrom address (ops.flatMap Op.words ++ ws) =
      ls ++ linesFrom (address + Program.width (ops.map Op.instruction)) ws := by
  induction ops generalizing address with
  | nil => exact ⟨[], rfl, rfl⟩
  | cons op rest ih =>
    obtain ⟨ls, hlength, hls⟩ := ih (address + op.width)
    refine ⟨.whole address op :: ls, by simp [hlength], ?_⟩
    rw [List.flatMap_cons, List.append_assoc, linesFrom_words, hls, List.map_cons,
      Program.width_cons, Op.width_instruction, Nat.add_assoc]
    rfl

/-- The line of each instruction of a nest. -/
theorem lines_encode {n : Nest} {before after : Program} {i : Instruction}
    (h : n.program = before ++ i :: after) :
    ∃ op : Op, op.instruction = i ∧
      n.encode.lines[before.length]? = some (.whole before.width op) := by
  rw [← n.map_instruction_ops, List.map_eq_append_iff] at h
  obtain ⟨opsBefore, opsRest, hops, rfl, hrest⟩ := h
  obtain ⟨op, opsAfter, rfl, rfl, rfl⟩ := List.map_eq_cons_iff.mp hrest
  refine ⟨op, rfl, ?_⟩
  obtain ⟨ls, hlength, hls⟩ := linesFrom_flatMap 0 opsBefore ((op :: opsAfter).flatMap Op.words)
  rw [lines, n.encode_eq_flatMap, hops, List.flatMap_append, hls, List.flatMap_cons,
    linesFrom_words, Nat.zero_add, List.length_map, ← hlength]
  simp

theorem length_lines_encode (n : Nest) : n.encode.lines.length = n.program.length := by
  obtain ⟨ls, hlength, hls⟩ := linesFrom_flatMap 0 n.ops []
  rw [List.append_nil, ← n.encode_eq_flatMap] at hls
  rw [lines, hls, ← n.map_instruction_ops, List.length_map, ← hlength]
  simp [linesFrom]

end Bytecode

/-! ## Jumps -/

/-- Whether an instruction jumps if its cell has this value. -/
def Op.jumpsOn (value : UInt8) : Op → Bool
  | jumpIfZero _ _ => value == 0
  | jumpIfNotZero _ _ => value != 0
  | input _ | output _ | change _ _ | set _ _ => false

/-- The next step of a machine takes a jump on the cell `i`. -/
def Machine.TakesJump (code : Array Word) (settings : Settings) (m : Machine) (i : Nat) : Prop :=
  ∃ op, m.plan code settings = .carryOut i op ∧ op.jumpsOn (m.value i) = true

/-- **A jump that is taken leads where its line says**, or out of the code. -/
theorem Machine.step_of_takesJump {code : Array Word} {settings : Settings} {m : Machine} {i : Nat}
    {op : Op} {t : Int} (hfetch : fetch code m.counter = some op)
    (ht : Bytecode.landing? m.counter op = some t) (h : m.TakesJump code settings i) :
    m.step code settings =
      if 0 ≤ t ∧ t ≤ code.size then .running { m.counted with pointer := i, counter := t.toNat }
      else .halted (some (.invalidJump m.counter)) { m.counted with pointer := i } := by
  obtain ⟨op', hplan, hjumps⟩ := h
  obtain rfl : op' = op := Option.some.inj ((of_plan_carryOut hplan).1.symm.trans hfetch)
  rw [step_eq_plan, hplan]
  cases op' with
  | jumpIfZero o distance =>
    obtain rfl := Option.some.inj ht
    have hzero : m.value i = 0 := by simpa [Op.jumpsOn] using hjumps
    exact if_pos hzero
  | jumpIfNotZero o distance =>
    obtain rfl := Option.some.inj ht
    have hcell : ¬m.value i = 0 := by simpa [Op.jumpsOn] using hjumps
    exact if_neg hcell
  | input o | output o | change o x | set o x => cases ht

/-- The jumps of a program lead into its code, or to its end. -/
theorem Nest.landing_of_delimiter {n : Nest} {before after : Program} {i : Instruction} {op : Op}
    (h : n.program = before ++ i :: after) (hi : i.isDelimiter = true)
    (hfetch : fetch n.encode.toArray before.width = some op) :
    ∃ target : Nat, Bytecode.landing? before.width op = some (target : Int) ∧
      target ≤ n.encode.length := by
  obtain ⟨op', hplaced, hop⟩ := n.exists_placed_of_program h
  obtain rfl : op' = op := Option.some.inj (hplaced.fetch.symm.trans hfetch)
  rw [n.length_encode, h]
  cases hop with
  | act e o => cases hi
  | enter o exit body rest hbody hafter =>
    subst hafter
    refine ⟨before.width + 3 + (body.width + 3), by simp [Bytecode.landing?], ?_⟩
    simp only [Program.width_append, Program.width_cons, Instruction.width_enter,
      Instruction.width_leave]
    omega
  | leave o entry outer body hbody hbefore =>
    subst hbefore
    refine ⟨outer.width + 3, ?_, ?_⟩
    · simp only [Bytecode.landing?, Program.width_append, Program.width_cons,
        Instruction.width_enter, Option.some.injEq]
      push_cast
      omega
    · simp only [Program.width_append, Program.width_cons, Instruction.width_enter,
        Instruction.width_leave]
      omega

/-- **A listing tells the truth about the control flow.** The listing of a balanced program has one
line for each instruction, in their order. A line shows the address at which the instruction is
encoded, its name and its operands, and for a loop delimiter the address at which the machine goes
on when it takes the jump. In the listing of any words, a line that shows a target is that of a
jump, and a machine that takes the jump goes on at the target if that is in the code or at its end;
otherwise the run ends there with an invalid jump. -/
theorem Bytecode.listing_truthful :
    (∀ p : Program, p.Balanced → ∃ code, p.compile = .ok code ∧
      (Text.lines code.listing).length = p.length ∧
      ∀ (before : Program) (i : Instruction) (after : Program), p = before ++ i :: after →
        ∃ op : Op, fetch code.toArray before.width = some op ∧ op.instruction = i ∧
        (Text.lines code.listing)[before.length]? = some (Line.whole before.width op).text ∧
        Shown.ofText? (Line.whole before.width op).text = some (.ofOp before.width op) ∧
        (i.isDelimiter = true → ∃ target : Nat,
          (Shown.ofOp before.width op).target = some (target : Int) ∧
          ∀ (settings : Settings) (m : Machine) (cell : Nat), m.counter = before.width →
            m.TakesJump code.toArray settings cell →
            m.step code.toArray settings =
              .running { m.counted with pointer := cell, counter := target })) ∧
    ∀ (code : Bytecode) (s : String) (shown : Shown) (t : Int), s ∈ Text.lines code.listing →
      Shown.ofText? s = some shown → shown.target = some t →
      ∃ (a : Nat) (op : Op), shown = .ofOp a op ∧ fetch code.toArray a = some op ∧
        ∀ (settings : Settings) (m : Machine) (cell : Nat), m.counter = a →
          m.TakesJump code.toArray settings cell →
          m.step code.toArray settings =
            if 0 ≤ t ∧ t ≤ code.length then
              .running { m.counted with pointer := cell, counter := t.toNat }
            else .halted (some (.invalidJump a)) { m.counted with pointer := cell } := by
  refine ⟨?_, ?_⟩
  · rintro _ ⟨n, rfl⟩
    refine ⟨n.encode, n.compile_program, ?_, ?_⟩
    · rw [lines_listing, List.length_map, length_lines_encode]
    · intro before i after hsplit
      obtain ⟨op, rfl, hline⟩ := lines_encode hsplit
      have hfetch : fetch n.encode.toArray before.width = some op :=
        fetch_of_mem_linesFrom (.whole n.encode) (List.mem_of_getElem? hline)
      refine ⟨op, hfetch, rfl, by rw [lines_listing, List.getElem?_map, hline]; rfl,
        Shown.ofText?_whole before.width op, ?_⟩
      intro hdelimiter
      obtain ⟨target, hlanding, hle⟩ := Nest.landing_of_delimiter hsplit hdelimiter hfetch
      refine ⟨target, hlanding, ?_⟩
      intro settings m cell hcounter hjump
      rw [← hcounter] at hfetch hlanding
      rw [Machine.step_of_takesJump hfetch hlanding hjump, if_pos, Int.toNat_natCast]
      rw [List.size_toArray]
      omega
  · intro code s shown t hs hshown ht
    rw [lines_listing] at hs
    obtain ⟨l, hl, rfl⟩ := List.mem_map.mp hs
    obtain ⟨a, op, rfl, rfl⟩ := Shown.whole_of_target hshown ht
    have hfetch : fetch code.toArray a = some op := fetch_of_mem_linesFrom (.whole code) hl
    refine ⟨a, op, rfl, hfetch, ?_⟩
    intro settings m cell hcounter hjump
    subst hcounter
    rw [Machine.step_of_takesJump hfetch ht hjump, List.size_toArray]

/-- The jumps of a loop in a program, and a jump that leads out of the code. -/
theorem Bytecode.listing_truthful_of_jumps :
    (∃ code, Program.compile [.act (.change 3) 0, .enter 0, .act .output 1, .leave 0] = .ok code ∧
      (Text.lines code.listing).length = 4 ∧
      (Text.lines code.listing)[1]? = some "0003 jz      0    5  -> 0011" ∧
      Machine.step { Machine.load { tapeSize := 1 } {} with counter := 3 } code.toArray
          { tapeSize := 1 } =
        .running { Machine.load { tapeSize := 1 } {} with counter := 11, steps := 1 }) ∧
    Text.lines (Bytecode.listing [5, 0, -10]) = ["0000 jz      0  -10  -> -007"] ∧
      Machine.step (.load { tapeSize := 1 } {}) #[5, 0, -10] { tapeSize := 1 } =
        .halted (some (.invalidJump 0)) { Machine.load { tapeSize := 1 } {} with steps := 1 } := by
  obtain ⟨hprogram, hwords⟩ := Bytecode.listing_truthful
  refine ⟨?_, ?_, ?_⟩
  · obtain ⟨code, hcode, hlength, hline⟩ := hprogram
      [.act (.change 3) 0, .enter 0, .act .output 1, .leave 0]
      ⟨.act (.change 3) 0 (.loop 0 (.act .output 1 .done) 0 .done), rfl⟩
    obtain ⟨op, hfetch, -, htext, -, hjump⟩ := hline [.act (.change 3) 0] (.enter 0) _ rfl
    obtain ⟨target, htarget, hstep⟩ := hjump rfl
    obtain rfl := Except.ok.inj hcode
    obtain rfl := Option.some.inj hfetch
    obtain rfl : target = 11 := by
      have heq : (11 : Int) = target := Option.some.inj htarget
      omega
    refine ⟨_, hcode, hlength, htext.trans (by decide), ?_⟩
    exact hstep _ _ 0 rfl ⟨_, rfl, rfl⟩
  · decide
  · obtain ⟨a, op, hshown, -, hstep⟩ := hwords [5, 0, -10] "0000 jz      0  -10  -> -007"
      ⟨0, "jz", [0, -10], some (-7)⟩ (-7) (by decide) (by decide) rfl
    obtain rfl : a = 0 := by
      have heq : (0 : Int) = a := congrArg Shown.address hshown
      omega
    exact hstep { tapeSize := 1 } (.load { tapeSize := 1 } {}) 0 rfl ⟨_, rfl, rfl⟩

end Tapecode
