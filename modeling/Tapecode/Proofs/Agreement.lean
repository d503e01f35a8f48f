import Tapecode.Proofs.Decompilation
import Tapecode.Proofs.Matching
import Tapecode.Proofs.NormalForm

/-!
# What the readers of a program agree on

A program is compiled, optimised, and parsed again once it has been written as a source text. Each
of these keeps count of the open loops in its own way, and some of them drop instructions or read
symbols that the program has not got. Still they refuse the same programs, and for the same reason
(`Program.readers_agree`).

* Optimising keeps as many loops open as the program does, whatever becomes of them when they are
  closed (`Builder.counts`).
* The source text of a program has the brackets of the program, and some matched ones in addition
  (`Program.source_alike`).
-/

namespace Tapecode

open Brackets

/-! ## Optimising -/

namespace Builder

/-- One instruction of a replay, from a base and a builder to the next. -/
def replayNext (s : Int × Builder) (i : Instruction) : Except BuildError (Int × Builder) :=
  match s.2.replay s.1 i with
  | (.ok base, b) => .ok (base, b)
  | (.error e, _) => .error e

theorem replayNext_eq_ok {b b' : Builder} {base base' : Int} {i : Instruction}
    (h : b.replay base i = (.ok base', b')) : replayNext (base, b) i = .ok (base', b') := by
  simp only [replayNext, h]

theorem replays_eq_foldlM (b : Builder) (base : Int) (p : Program) :
    b.replays base p = p.foldlM replayNext (base, b) := by
  induction p generalizing b base with
  | nil => rfl
  | cons i rest ih =>
    rw [replays, List.foldlM_cons, replayNext]
    rcases b.replay base i with ⟨_ | base', b'⟩
    · rfl
    · exact ih b' base'

/-- **Replaying keeps as many loops open as the program does.** -/
theorem counts : Counts Instruction.weight replayNext (·.2.finalized = false) (·.2.loops.length)
    .unmatchedLoopEnd where
  refuses := by
    rintro ⟨base, b⟩ i hb hi hloops
    cases i with
    | act e o => cases hi
    | enter o => cases hi
    | leave o =>
      have hb : b.finalized = false := hb
      have hloops : b.loops = [] := List.length_eq_zero_iff.mp hloops
      simp [replayNext, replay, endLoop, hb, hloops, Except.map]
  takes := by
    rintro ⟨base, b⟩ i hb hi
    have hb : b.finalized = false := hb
    cases i with
    | act e o =>
      refine ⟨_, replayNext_eq_ok (replay_act hb base e o), hb, ?_⟩
      simp [Instruction.weight]
    | enter o =>
      refine ⟨_, replayNext_eq_ok (replay_enter hb base o), hb, ?_⟩
      simp [Instruction.weight]
    | leave o =>
      rcases hloops : b.loops with _ | ⟨l, outer⟩
      · exact absurd (by simp [hloops]) (hi rfl)
      · obtain ⟨fate, b', hend, houter, hfin, -⟩ :=
          exists_endLoop (b := { b with offset := base + o }) hb hloops
        refine ⟨_, replayNext_eq_ok (replay_leave hend), hfin, ?_⟩
        simp only [houter, Instruction.weight, List.length_cons]
        omega

end Builder

/-- Optimising fails on an end too many, or else on a start too many. -/
theorem Program.optimize_judged (passes : Passes) (p : Program) :
    Judged Instruction.weight (· = .unmatchedLoopEnd) (· = .unclosedLoop) p
      (p.optimize passes) := by
  rw [Program.optimize, Builder.replayAll_eq, Builder.replays_eq_foldlM]
  rcases Builder.counts.foldlM_cases (s := (0, { passes })) rfl p with
    ⟨hcovered, hfold⟩ | ⟨hcovered, ⟨base, b⟩, hfold, hb, hdepth⟩
  · exact .inl ⟨fun h => hcovered (inside_iff.mp h), _, rfl, by rw [hfold]⟩
  · have hinside : Inside Instruction.weight p := inside_iff.mpr hcovered
    have hheight : (b.loops.length : Int) = height Instruction.weight p := by simpa using hdepth
    have hb : b.finalized = false := hb
    rw [hfold]
    by_cases hloops : b.loops = []
    · refine .inr (.inr ⟨⟨hinside, ?_⟩, b.instructions, ?_⟩)
      · rw [← hheight, hloops, List.length_nil, Int.natCast_zero]
      · exact Builder.finalize_of_loops_eq_nil hb hloops
    · refine .inr (.inl ⟨hinside, ?_, .unclosedLoop, rfl, ?_⟩)
      · have hpos := List.length_pos_iff.mpr hloops
        omega
      · simp [Builder.finalize, Builder.canFinalize, hb, hloops]

/-! ## Parsing -/

/-- What a symbol does to the number of open loops. -/
def Symbol.weight : Symbol → Int
  | loopStart => 1
  | loopEnd => -1
  | increment | decrement | left | right | input | output => 0

/-- The tokens of a source text have the brackets of its symbols. -/
theorem tokens_alike (position : Position) (bytes : List UInt8) :
    Alike Token.weight Symbol.weight (Token.body (tokenizeFrom position bytes))
      (symbolsOf bytes) := by
  induction bytes generalizing position with
  | nil => exact .of_balanced .nil .nil
  | cons b rest ih =>
    cases hb : Symbol.ofByte? b with
    | none =>
      simp only [tokenizeFrom, symbolsOf, hb, List.filterMap_cons_none]
      exact ih _
    | some s =>
      have hsymbols : symbolsOf (b :: rest) = [s] ++ symbolsOf rest := List.filterMap_cons_some hb
      have hweight : Token.weight ⟨.symbol s, position⟩ = s.weight := by cases s <;> rfl
      simp only [tokenizeFrom, hb]
      rw [Token.body_symbol, hsymbols]
      exact (Alike.singleton hweight).append (ih _)

namespace Program

theorem balanced_repeated {back forth : Symbol} (hback : back.weight = 0)
    (hforth : forth.weight = 0) (n : Int) :
    Brackets.Balanced Symbol.weight (repeated back forth n) := by
  unfold repeated
  split
  · exact balanced_replicate _ hback
  · exact balanced_replicate _ hforth

/-- The symbols of an instruction have its brackets. A set has a loop of its own, which is closed.
-/
theorem symbolsAt_alike (i : Instruction) :
    Alike Symbol.weight Instruction.weight (symbolsAt i) [i] := by
  have hunits (amount : Int8) : Brackets.Balanced Symbol.weight (units amount) :=
    balanced_repeated rfl rfl _
  cases i with
  | enter o => exact .singleton rfl
  | leave o => exact .singleton rfl
  | act e o =>
    cases e with
    | input => exact .singleton rfl
    | output => exact .singleton rfl
    | change d => exact .of_balanced (hunits d) (.singleton rfl)
    | set v =>
      have hstart : Symbol.loopStart.weight = 1 := rfl
      have hbody : Brackets.Balanced Symbol.weight [.decrement] := .singleton rfl
      have hloop : Brackets.Balanced Symbol.weight [.loopStart, .decrement, .loopEnd] :=
        .pair hstart hbody rfl
      exact .of_balanced (hloop.append (hunits v)) (.singleton rfl)

theorem symbolsFrom_alike (here : Int) (p : Program) :
    Alike Symbol.weight Instruction.weight (symbolsFrom here p) p := by
  induction p generalizing here with
  | nil => exact .of_balanced .nil .nil
  | cons i rest ih =>
    have hmoves : Brackets.Balanced Symbol.weight (moves (i.offset - here)) :=
      balanced_repeated rfl rfl _
    exact ((symbolsAt_alike i).balanced_append hmoves).append (ih (settled i))

/-- **The source text of a program has the brackets of the program.** -/
theorem source_alike (p : Program) :
    Alike Token.weight Instruction.weight (Token.body (tokenize p.source)) p := by
  have htokens := tokens_alike .start p.source
  rw [symbolsOf_source] at htokens
  exact htokens.trans (symbolsFrom_alike 0 p)

end Program

theorem Token.weight_cases (t : Token) : t.weight = 1 ∨ t.weight = 0 ∨ t.weight = -1 := by
  obtain ⟨kind, position⟩ := t
  cases kind with
  | endOfInput => simp [weight]
  | symbol s => cases s <;> simp [weight]

/-- The verdict on some tokens, told from the heights of their prefixes. -/
theorem Parse.Verdict.judged {tokens : List Token}
    {result : Except ParseError (Program × List Warning)} (h : Parse.Verdict tokens result) :
    Judged Token.weight (fun e => ∃ position, e = .unmatchedCloseBracket position)
      (fun e => ∃ position opened, e = .unclosedLoop position opened) (Token.body tokens)
      result := by
  cases h with
  | unmatched h _ =>
    exact .inl ⟨(exists_unmatched_iff Token.weight_cases).mp ⟨_, _, h⟩, _, ⟨_, rfl⟩, rfl⟩
  | unclosed matched h _ =>
    have hinside := (matched_iff Token.weight_cases).mp matched
    have hheight := (exists_unclosed_iff Token.weight_cases hinside).mp ⟨_, _, h⟩
    exact .inr (.inl ⟨hinside, hheight, _, ⟨_, _, rfl⟩, rfl⟩)
  | ok matched closed r =>
    have hinside := (matched_iff Token.weight_cases).mp matched
    refine .inr (.inr ⟨⟨hinside, ?_⟩, r, rfl⟩)
    have hnonneg := hinside _ List.prefix_rfl
    by_contra hne
    obtain ⟨s, after, hunclosed⟩ :=
      (exists_unclosed_iff Token.weight_cases hinside).mpr (by omega)
    exact closed s after hunclosed

/-- Parsing the source text of a program fails where the program is not balanced, and only there. -/
theorem Program.parse_source_judged (passes : Passes) (p : Program) :
    Judged Instruction.weight (fun e => ∃ position, e = .unmatchedCloseBracket position)
      (fun e => ∃ position opened, e = .unclosedLoop position opened) p
      (parse passes p.source) :=
  p.source_alike.judged ((Parse.Took.start passes).run (tokenize p.source)).judged

/-! ## Agreement -/

theorem Program.compile_judged (p : Program) :
    Judged Instruction.weight (· = .unmatchedLoopEnd) (· = .unclosedLoop) p p.compile :=
  (Nest.ofProgram?_judged p).map Nest.encode

/-- **The readers of a program agree on which loops are well formed**, whatever the passes. If some
loop end has no open loop before it, then compiling the program, optimising it and parsing its
source text all fail because of an unmatched loop end. Otherwise, if some loop start is never
closed, they all fail because of an unclosed loop. Otherwise they all succeed, and what optimising
gives compiles as well.

Offsets are summed exactly here. They do not matter for any of this, so it holds of sums that wrap as
well (`Program.exists_optimize_eq`, `parse_of_length_le`). -/
theorem Program.readers_agree (passes : Passes) (p : Program) :
    ((∃ before t, Unmatched Instruction.weight p before t) →
      p.compile = .error .unmatchedLoopEnd ∧ p.optimize passes = .error .unmatchedLoopEnd ∧
        ∃ position, parse passes p.source = .error (.unmatchedCloseBracket position)) ∧
    ((∀ before t, ¬Unmatched Instruction.weight p before t) →
      (∃ s after, Unclosed Instruction.weight p s after) →
      p.compile = .error .unclosedLoop ∧ p.optimize passes = .error .unclosedLoop ∧
        ∃ position opened, parse passes p.source = .error (.unclosedLoop position opened)) ∧
    ((∀ before t, ¬Unmatched Instruction.weight p before t) →
      (∀ s after, ¬Unclosed Instruction.weight p s after) →
      (∃ code, p.compile = .ok code) ∧
        (∃ q code, p.optimize passes = .ok q ∧ q.compile = .ok code) ∧
        ∃ q ws, parse passes p.source = .ok (q, ws)) := by
  have hcompile := p.compile_judged
  have hoptimize := p.optimize_judged passes
  have hparse := p.parse_source_judged passes
  refine ⟨?_, ?_, ?_⟩
  · intro hends
    obtain ⟨_, rfl, hcompile⟩ := hcompile.of_unmatched Instruction.weight_cases hends
    obtain ⟨_, rfl, hoptimize⟩ := hoptimize.of_unmatched Instruction.weight_cases hends
    obtain ⟨_, ⟨position, rfl⟩, hparse⟩ := hparse.of_unmatched Instruction.weight_cases hends
    exact ⟨hcompile, hoptimize, position, hparse⟩
  · intro hends hstarts
    obtain ⟨_, rfl, hcompile⟩ := hcompile.of_unclosed Instruction.weight_cases hends hstarts
    obtain ⟨_, rfl, hoptimize⟩ := hoptimize.of_unclosed Instruction.weight_cases hends hstarts
    obtain ⟨_, ⟨position, opened, rfl⟩, hparse⟩ :=
      hparse.of_unclosed Instruction.weight_cases hends hstarts
    exact ⟨hcompile, hoptimize, position, opened, hparse⟩
  · intro hends hstarts
    obtain ⟨q, hq⟩ := hoptimize.of_matched Instruction.weight_cases hends hstarts
    obtain ⟨⟨q, ws⟩, hparse⟩ := hparse.of_matched Instruction.weight_cases hends hstarts
    obtain ⟨⟨n, rfl⟩, -⟩ := Program.normal_of_optimize hq
    exact ⟨hcompile.of_matched Instruction.weight_cases hends hstarts,
      ⟨n.program, n.encode, hq, n.compile_program⟩, q, ws, hparse⟩

/-- A loop end behind a set, a loop start before one, and a set in a loop that is dropped. -/
theorem Program.readers_agree_of_sets :
    (Program.compile [.act (.set 2) 1, .leave 0, .enter 0] = .error .unmatchedLoopEnd ∧
      Program.optimize .all [.act (.set 2) 1, .leave 0, .enter 0] = .error .unmatchedLoopEnd ∧
      ∃ position, parse .all (Program.source [.act (.set 2) 1, .leave 0, .enter 0]) =
        .error (.unmatchedCloseBracket position)) ∧
    (Program.compile [.enter 0, .act (.set 2) 1] = .error .unclosedLoop ∧
      Program.optimize .all [.enter 0, .act (.set 2) 1] = .error .unclosedLoop ∧
      ∃ position opened, parse .all (Program.source [.enter 0, .act (.set 2) 1]) =
        .error (.unclosedLoop position opened)) ∧
    ((∃ code, Program.compile [.enter 0, .act (.set 2) 1, .leave 0] = .ok code) ∧
      (∃ q code, Program.optimize .all [.enter 0, .act (.set 2) 1, .leave 0] = .ok q ∧
        q.compile = .ok code) ∧
      ∃ q ws, parse .all (Program.source [.enter 0, .act (.set 2) 1, .leave 0]) = .ok (q, ws)) := by
  have hset : Brackets.Balanced Instruction.weight [.act (.set 2) 1] := .singleton rfl
  have hopen : Inside Instruction.weight [.enter 0, .act (.set 2) 1] :=
    inside_iff.mpr (by simp [Instruction.weight])
  have hloop : Brackets.Balanced Instruction.weight [.enter 0, .act (.set 2) 1, .leave 0] :=
    Program.balanced_iff.mp ⟨.loop 0 (.act (.set 2) 1 .done) 0 .done, rfl⟩
  refine ⟨?_, ?_, ?_⟩
  · exact (Program.readers_agree .all _).1 ⟨[.act (.set 2) 1], .leave 0, [.enter 0], rfl, rfl,
      hset.not_hasOpen⟩
  · exact (Program.readers_agree .all _).2.1 ((matched_iff Instruction.weight_cases).mpr hopen)
      ⟨.enter 0, [.act (.set 2) 1], [], rfl, rfl, hset.inside⟩
  · refine (Program.readers_agree .all _).2.2
      ((matched_iff Instruction.weight_cases).mpr hloop.inside) ?_
    rintro s after ⟨before, hsplit⟩
    exact hloop.not_hasOpen ⟨before, s, after, hsplit⟩

end Tapecode
