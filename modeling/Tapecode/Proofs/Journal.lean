import Tapecode.Journal
import Tapecode.Proofs.Protection
import Tapecode.Proofs.Warnings

/-!
# What the journal says

A journal follows the steps of a builder and notes each loop that is not kept when it is closed. The
note names the index at which the loop starts in the program of the builder, and the program after it
is what the note says (`Journal.endLoop_of_closed`).

Over a whole parse or a whole replay the notes add up:

* `Journal.parse_notes`: a parse notes the symbols that a listing of the tokens notes, as many dropped
  loops as it has warnings, and at last what it has come to;
* `Journal.optimize_notes`: optimising makes at most one note for each loop that gets lost, and none
  exactly if no loop gets lost. What has been optimised or parsed before is optimised again without a
  note (`Journal.optimize_of_optimized`, `Journal.optimize_of_parsed`).
-/

namespace Tapecode

/-- Whether the text of a note begins with these words. -/
def Note.opens (words : String) (n : Note) : Bool :=
  words.toList.isPrefixOf n.text.toList

/-- Only a loop that is open can be closed. -/
theorem Builder.exists_loops_of_endLoop {b b' : Builder} {f : LoopFate}
    (h : b.endLoop = (.ok f, b')) : b.finalized = false ∧ ∃ l outer, b.loops = l :: outer := by
  have hb : b.finalized = false := by
    rw [Bool.eq_false_iff]
    intro hfinalized
    simp [endLoop, hfinalized] at h
  rcases hloops : b.loops with _ | ⟨l, outer⟩
  · simp [endLoop, hb, hloops] at h
  · exact ⟨hb, l, outer, rfl⟩

namespace Journal

/-! ## The end of a loop -/

/-- The notes on what became of the loop that starts at an index. -/
def fate (start : Nat) : LoopFate → List Note
  | .kept => []
  | .removed => [⟨.trace, "removing dead loop at instruction " ++ toString start⟩]
  | .cleared => [⟨.trace, "rewriting clear loop at instruction " ++ toString start⟩]

theorem countP_fate (start : Nat) (f : LoopFate) :
    (fate start f).countP (·.opens "removing") = if f = .removed then 1 else 0 := by
  cases f <;> simp [fate, Note.opens]

theorem not_opens_of_mem_fate {start : Nat} {f : LoopFate} {n : Note} (h : n ∈ fate start f) :
    n.opens "token" = false := by
  cases f with
  | kept => cases h
  | removed | cleared =>
    obtain rfl := List.mem_singleton.mp h
    simp [Note.opens, List.isPrefixOf]

variable {b : Builder}

theorem endLoop_of_error {e : BuildError} (h : b.endLoop.1 = .error e) : endLoop b = [] := by
  simp [endLoop, h]

/-- **A loop is noted as what becomes of it.** The note names the index of its start, and what is left
of the program is what the note says. -/
theorem endLoop_of_closed {f : LoopFate} {b' : Builder} (h : b.endLoop = (.ok f, b')) :
    ∃ start entry, b.openStarts.head? = some start ∧ b.instructions[start]? = some (.enter entry) ∧
      endLoop b = fate start f ∧
      f.Leaves b.passes b.instructions start entry b'.instructions b'.offset := by
  obtain ⟨hb, l, outer, hloops⟩ := Builder.exists_loops_of_endLoop h
  have hstarts : b.openStarts =
      (Builder.unwind l.before outer).length :: Builder.openStarts.starts outer := by
    rw [Builder.openStarts, hloops, Builder.openStarts.starts]
  have hsuffix : l :: outer <:+ b.loops := hloops.symm ▸ List.suffix_rfl
  obtain ⟨f', b₁, hserve, -, -, hleaves⟩ := Builder.exists_endLoop_leaves hb hloops
  rw [Builder.serve, h] at hserve
  cases hserve
  refine ⟨_, l.entry, by rw [hstarts, List.head?_cons],
    Builder.instructions_getElem?_of_suffix hsuffix, ?_, hleaves⟩
  rw [endLoop, h, hstarts]
  cases f <;> rfl

/-! ## Parsing -/

/-- The notes on the symbols of a list of tokens, up to the end of the input. -/
def symbols : List Token → List Note
  | [] => []
  | ⟨.endOfInput, _⟩ :: _ => []
  | ⟨.symbol s, position⟩ :: rest => symbol s position :: symbols rest

theorem symbols_tokenize (source : List UInt8) :
    symbols (Tapecode.tokenize source) = tokenize source := by
  unfold tokenize Tapecode.tokenize
  generalize Position.start = p
  induction source generalizing p with
  | nil => rfl
  | cons b rest ih =>
    rw [tokenizeFrom]
    cases Symbol.ofByte? b with
    | none => exact ih _
    | some s => simp [symbols, ih]

theorem opens_symbol (s : Symbol) (p : Position) : (symbol s p).opens "token" = true := by
  simp [symbol, Note.opens]

theorem not_opens_symbol (s : Symbol) (p : Position) : (symbol s p).opens "removing" = false := by
  simp [symbol, Note.opens, List.isPrefixOf]

/-- The notes on a loop that a symbol may close. -/
def closing (p : Parse) (s : Symbol) : List Note :=
  if s = .loopEnd then endLoop p.builder else []

theorem not_opens_of_mem_closing {p : Parse} {s : Symbol} {n : Note} (h : n ∈ closing p s) :
    n.opens "token" = false := by
  rw [closing] at h
  split at h
  · rcases hend : p.builder.endLoop with ⟨e | f, b'⟩
    · rw [endLoop_of_error (by rw [hend])] at h
      cases h
    · obtain ⟨start, entry, -, -, hnotes, -⟩ := endLoop_of_closed hend
      exact not_opens_of_mem_fate (hnotes ▸ h)
  · cases h

/-- **A symbol adds a warning exactly if it closes a loop that is noted as dropped.** -/
theorem size_warnings_of_step {p p' : Parse} {s : Symbol} {position : Position}
    (h : p.step s position = .ok p') :
    p'.warnings.size = p.warnings.size + (closing p s).countP (·.opens "removing") := by
  have hcommand {p₀ : Parse} {r : Except BuildError Unit × Builder}
      (hr : p₀.afterCommand r = .ok p') : p'.warnings = p₀.warnings := by
    obtain ⟨e | u, b⟩ := r
    · cases hr
    · obtain rfl := Except.ok.inj hr
      rfl
  cases s with
  | loopEnd =>
    obtain ⟨start, opened, f, b', -, hend, hwarnings⟩ := Parse.step_loopEnd_inv h
    obtain ⟨index, entry, -, -, hnotes, -⟩ := endLoop_of_closed hend
    rw [closing, if_pos rfl, hnotes, countP_fate, hwarnings]
    split
    · exact Array.size_push ..
    · rfl
  | loopStart =>
    rw [Parse.step] at h
    have hwarnings := hcommand h
    exact congrArg Array.size hwarnings
  | increment | decrement | left | right | input | output =>
    rw [Parse.step] at h
    exact congrArg Array.size (hcommand h)

variable {p : Parse} {ts : List Token} {program : Program} {ws : List Warning}

theorem tokens_symbol (ofSource : Bool) (p : Parse) (s : Symbol) (position : Position)
    (rest : List Token) :
    tokens ofSource p (⟨.symbol s, position⟩ :: rest) =
      (if ofSource then [symbol s position] else []) ++ closing p s ++
        match p.step s position with
        | .ok p' => tokens ofSource p' rest
        | .error _ => [] :=
  rfl

/-- A parse that is finished has all its warnings. -/
theorem warnings_of_finish (h : p.finish = .ok (program, ws)) : p.warnings.toList = ws := by
  unfold Parse.finish at h
  split at h
  · cases h
  · split at h
    · exact (Prod.mk.inj (Except.ok.inj h)).2
    · cases h

/-- **The dropped loops that a parse goes on to note are those it goes on to warn of.** -/
theorem countP_tokens (ofSource : Bool) (h : p.run ts = .ok (program, ws)) :
    p.warnings.size + (tokens ofSource p ts).countP (·.opens "removing") = ws.length := by
  induction ts generalizing p with
  | nil => simp [tokens, ← warnings_of_finish h]
  | cons t rest ih =>
    obtain ⟨s | _, position⟩ := t
    · rw [Parse.run] at h
      rw [tokens_symbol]
      cases hstep : p.step s position with
      | error e =>
        rw [hstep] at h
        cases h
      | ok p' =>
        rw [hstep] at h
        have hsize := size_warnings_of_step hstep
        have hrest := ih h
        have htaken : (if ofSource then [symbol s position] else []).countP (·.opens "removing") =
            0 := by
          cases ofSource <;> simp [not_opens_symbol]
        simp only [List.countP_append, htaken]
        omega
    · rw [Parse.run] at h
      split at h
      · cases h
      · simp [tokens, ← warnings_of_finish h]

/-- A parse of a source text that succeeds notes every symbol. -/
theorem filter_tokens (h : p.run ts = .ok (program, ws)) :
    (tokens true p ts).filter (·.opens "token") = symbols ts := by
  induction ts generalizing p with
  | nil => rfl
  | cons t rest ih =>
    obtain ⟨s | _, position⟩ := t
    · rw [Parse.run] at h
      cases hstep : p.step s position with
      | error e =>
        rw [hstep] at h
        cases h
      | ok p' =>
        rw [hstep] at h
        have hclosing : (closing p s).filter (·.opens "token") = [] := by
          rw [List.filter_eq_nil_iff]
          intro n hn
          simp [not_opens_of_mem_closing hn]
        simp [tokens_symbol, hstep, hclosing, opens_symbol, ih h, symbols]
    · rfl

/-- **The notes on a source text that parses.** -/
theorem parse_notes {passes : Passes} {source : List UInt8}
    (h : Tapecode.parse passes source = .ok (program, ws)) :
    (parse passes source).filter (·.opens "token") = tokenize source ∧
      (parse passes source).countP (·.opens "removing") = ws.length ∧
      (parse passes source).getLast? = some (parsed program ws) := by
  have hnotes : parse passes source =
      tokens true (.start passes) (Tapecode.tokenize source) ++ [parsed program ws] := by
    rw [Tapecode.parse] at h
    rw [parse, parseTokens, h]
  have hparsed (words : String) (hwords : words = "token" ∨ words = "removing") :
      (parsed program ws).opens words = false := by
    rcases hwords with rfl | rfl <;> simp [parsed, Note.opens, List.isPrefixOf]
  have hcount := countP_tokens true h
  rw [hnotes]
  refine ⟨?_, ?_, ?_⟩
  · simp [filter_tokens h, symbols_tokenize, hparsed]
  · simpa [hparsed, Parse.start] using hcount
  · simp

end Journal

/-! ## Optimising -/

/-- How many loops are started in a list of instructions. -/
def Program.loopCount (p : List Instruction) : Nat :=
  p.countP (·.weight = 1)

namespace Program

@[simp] theorem loopCount_nil : loopCount [] = 0 := rfl

@[simp] theorem loopCount_append (p q : List Instruction) :
    loopCount (p ++ q) = loopCount p + loopCount q :=
  List.countP_append

@[simp] theorem loopCount_reverse (p : List Instruction) : loopCount p.reverse = loopCount p :=
  List.countP_reverse

@[simp] theorem loopCount_act (e : Effect) (o : Int) (p : List Instruction) :
    loopCount (.act e o :: p) = loopCount p := by
  simp [loopCount, Instruction.weight]

@[simp] theorem loopCount_enter (o : Int) (p : List Instruction) :
    loopCount (.enter o :: p) = loopCount p + 1 := by
  simp [loopCount, Instruction.weight]

@[simp] theorem loopCount_leave (o : Int) (p : List Instruction) :
    loopCount (.leave o :: p) = loopCount p := by
  simp [loopCount, Instruction.weight]

theorem loopCount_map_act (o : Int) (effects : List Effect) :
    loopCount (effects.map (.act · o)) = 0 := by
  induction effects with
  | nil => rfl
  | cons e rest ih => rw [List.map_cons, loopCount_act, ih]

theorem loopCount_emitStore (passes : Passes) (e : Effect) (o : Int) (p : List Instruction) :
    loopCount (passes.emitStore e o p) = loopCount p := by
  have hdrop : loopCount (p.dropWhile (·.writesAt o)) = loopCount p := by
    induction p with
    | nil => rfl
    | cons i rest ih =>
      rw [List.dropWhile_cons]
      split
      · cases i with
        | act e' o' => rw [ih, loopCount_act]
        | enter o' | leave o' => simp_all [Instruction.writesAt, Instruction.isWrite]
      · rfl
  rw [Passes.emitStore, loopCount_act]
  split
  · exact hdrop
  · rfl

theorem loopCount_emitChange (passes : Passes) (d : Int8) (o : Int) (p : List Instruction) :
    loopCount (passes.emitChange d o p) = loopCount p := by
  cases p with
  | nil => exact loopCount_act (.change d) o []
  | cons last older =>
    have hmerged {merged : List Instruction} (h : last.followedBy d = some merged) :
        loopCount (merged ++ older) = loopCount (last :: older) := by
      cases last with
      | enter o' | leave o' => cases h
      | act w o' =>
        obtain ⟨effects, -, rfl⟩ := Option.map_eq_some_iff.mp h
        rw [loopCount_append, loopCount_act, loopCount_map_act, Nat.zero_add]
    simp only [Passes.emitChange]
    split
    · rename_i merged h
      exact hmerged (Option.ite_none_right_eq_some.mp h).2
    · exact loopCount_act ..

/-- Effects start no loops, and simplifying them drops none. -/
theorem loopCount_emit (passes : Passes) (e : Effect) (o : Int) (p : List Instruction) :
    loopCount (passes.emit e o p) = loopCount p := by
  cases e with
  | set v => exact loopCount_emitStore passes (.set v) o p
  | input => exact loopCount_emitStore passes .input o p
  | output => exact loopCount_act .output o p
  | change d => exact loopCount_emitChange passes d o p

end Program

/-- Some loops out of `before` get lost, of which `after` are left. There is at most one note for each,
and none if no loop gets lost. -/
structure Journal.Accounts (before after : Nat) (notes : List Note) : Prop where
  le : after + notes.length ≤ before
  eq_of_nil : notes = [] → after = before

namespace Journal

open Program

theorem Accounts.refl (n : Nat) : Accounts n n [] :=
  ⟨Nat.le_refl n, fun _ => rfl⟩

theorem Accounts.trans {n m k : Nat} {xs ys : List Note} (h : Accounts n m xs)
    (h' : Accounts m k ys) : Accounts n k (xs ++ ys) := by
  have hle := h.le
  have hle' := h'.le
  refine ⟨by rw [List.length_append]; omega, fun hnil => ?_⟩
  obtain ⟨hxs, hys⟩ := List.append_eq_nil_iff.mp hnil
  exact (h'.eq_of_nil hys).trans (h.eq_of_nil hxs)

/-- Loops that are started on the way are left at the end. -/
theorem Accounts.add {n m : Nat} {xs : List Note} (h : Accounts n m xs) (k : Nat) :
    Accounts (n + k) (m + k) xs := by
  have hle := h.le
  refine ⟨by omega, fun hnil => ?_⟩
  rw [h.eq_of_nil hnil]

variable {b b' : Builder}

theorem loopCount_instructions (b : Builder) :
    loopCount b.instructions = loopCount (Builder.unwind b.recent b.loops) :=
  loopCount_reverse _

/-- **A loop that gets lost when it is closed is noted.** -/
theorem accounts_endLoop {f : LoopFate} (h : b.endLoop = (.ok f, b')) :
    Accounts (loopCount b.instructions) (loopCount b'.instructions) (endLoop b) := by
  obtain ⟨hb, l, outer, hloops⟩ := Builder.exists_loops_of_endLoop h
  obtain ⟨start, entry, -, -, hnotes, -⟩ := endLoop_of_closed h
  have hbefore : loopCount b.instructions =
      loopCount b.recent + (loopCount (Builder.unwind l.before outer) + 1) := by
    rw [loopCount_instructions, hloops, Builder.unwind, loopCount_append, loopCount_enter]
  rw [hnotes, hbefore]
  rcases Builder.endLoop_cases hb hloops with ⟨-, hend⟩ | ⟨-, -, hend⟩ | ⟨-, -, hend⟩
  · cases h.symm.trans hend
    refine ⟨?_, fun hnil => absurd hnil (List.cons_ne_nil _ _)⟩
    rw [loopCount_instructions]
    simp only [fate, List.length_singleton]
    omega
  · cases h.symm.trans hend
    refine ⟨?_, fun hnil => absurd hnil (List.cons_ne_nil _ _)⟩
    rw [loopCount_instructions, ← Passes.emit, ← Builder.emit_unwind, loopCount_emit]
    simp only [fate, List.length_singleton]
    omega
  · cases h.symm.trans hend
    rw [loopCount_instructions, Builder.unwind_leave, loopCount_leave, Builder.unwind,
      loopCount_append, loopCount_enter]
    exact .refl _

variable {base base' : Int} {p q : Program} {a : Arithmetic}

/-- The notes on a loop that an instruction may close when it is replayed. -/
def replayed (b : Builder) (base : Int) (a : Arithmetic) : Instruction → List Note
  | .leave o => endLoop { b with offset := a.add base o }
  | .act _ _ | .enter _ => []

theorem replay_cons (b : Builder) (base : Int) (i : Instruction) (rest : Program) :
    replay b base (i :: rest) a =
      replayed b base a i ++
        match b.replay base i a with
        | (.ok base', b') => replay b' base' rest a
        | (.error _, _) => [] := by
  cases i <;> rfl

/-- One instruction adds the loop that it starts, and the notes account for one that gets lost. -/
theorem accounts_replayed (hb : b.finalized = false) {i : Instruction}
    (h : b.replay base i a = (.ok base', b')) :
    b'.finalized = false ∧
      Accounts (loopCount b.instructions + loopCount [i]) (loopCount b'.instructions)
        (replayed b base a i) := by
  cases i with
  | act e o =>
    cases (Builder.replay_act hb base e o).symm.trans h
    refine ⟨hb, ?_⟩
    rw [loopCount_instructions, loopCount_instructions, ← Builder.emit_unwind, loopCount_emit]
    exact .refl _
  | enter o =>
    cases (Builder.replay_enter hb base o).symm.trans h
    refine ⟨hb, ?_⟩
    rw [loopCount_instructions, loopCount_instructions, Builder.unwind, List.nil_append,
      loopCount_enter, loopCount_enter]
    exact .refl _
  | leave o =>
    rcases hend : { b with offset := a.add base o }.endLoop with ⟨e | f, b₁⟩
    · simp [Builder.replay, Instruction.offset, hend, Except.map] at h
    · cases (Builder.replay_leave hend).symm.trans h
      obtain ⟨-, l, outer, hloops⟩ := Builder.exists_loops_of_endLoop hend
      obtain ⟨f', b₂, hend', -, hopen, -⟩ := Builder.exists_endLoop (b := { b with
        offset := a.add base o }) hb hloops
      cases hend.symm.trans hend'
      refine ⟨hopen, ?_⟩
      rw [loopCount_leave]
      exact accounts_endLoop hend

/-- **The notes of a replay account for the loops that get lost in it.** -/
theorem accounts_replay (hb : b.finalized = false) (h : b.replayAll base p a = .ok q) :
    Accounts (loopCount b.instructions + loopCount p) (loopCount q) (replay b base p a) := by
  induction p generalizing b base with
  | nil =>
    obtain ⟨-, rfl⟩ := Builder.loops_of_finalize h
    exact .refl _
  | cons i rest ih =>
    rw [Builder.replayAll] at h
    rw [replay_cons]
    rcases hreplay : b.replay base i a with ⟨e | base', b'⟩
    · rw [hreplay] at h
      cases h
    · rw [hreplay] at h
      obtain ⟨hb', hfirst⟩ := accounts_replayed hb hreplay
      rw [← List.singleton_append, loopCount_append, ← Nat.add_assoc]
      exact (hfirst.add _).trans (ih hb' h)

/-- **What optimising notes**: at most one note for each loop that gets lost, and none exactly if no
loop gets lost. -/
theorem optimize_notes {passes : Passes} (h : p.optimize passes a = .ok q) :
    loopCount q + (optimize passes p a).length ≤ loopCount p ∧
      (optimize passes p a = [] ↔ loopCount q = loopCount p) := by
  have haccounts := accounts_replay (b := { passes }) rfl h
  rw [loopCount_instructions, Builder.unwind, loopCount_nil, Nat.zero_add] at haccounts
  have hle : loopCount q + (optimize passes p a).length ≤ loopCount p := haccounts.le
  refine ⟨hle, haccounts.eq_of_nil, fun heq => ?_⟩
  rw [heq] at hle
  exact List.length_eq_zero_iff.mp (by omega)

/-- **What has been optimised is optimised again without a note.** -/
theorem optimize_of_optimized {passes : Passes} (h : p.optimize passes a = .ok q) :
    optimize passes q = [] := by
  obtain ⟨hbalanced, hnormal⟩ := Program.normal_of_optimize h
  exact (optimize_notes (hnormal.optimize_eq hbalanced)).2.mpr rfl

/-- So is what has been parsed. -/
theorem optimize_of_parsed {passes : Passes} {source : List UInt8} {ws : List Warning}
    (h : Tapecode.parse passes source = .ok (p, ws)) : optimize passes p = [] := by
  obtain ⟨plain, -, hplain⟩ := exists_plain_of_parse h
  exact optimize_of_optimized hplain

/-- The source text `[.]+[-]` starts two loops, of which one is dropped and one is turned into a set. -/
example :
    (parse .all ([.loopStart, .output, .loopEnd, .increment, .loopStart, .decrement,
        .loopEnd].map Symbol.byte)).map Note.text =
      ["token [ at 1:1", "token . at 1:2", "token ] at 1:3", "removing dead loop at instruction 0",
        "token + at 1:4", "token [ at 1:5", "token - at 1:6", "token ] at 1:7",
        "rewriting clear loop at instruction 1", "parsed 1 instructions (1 warnings)"] := by
  decide

end Journal

end Tapecode
