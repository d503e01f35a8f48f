import Tapecode.Parse
import Tapecode.Proofs.Language
import Tapecode.Proofs.Replay

/-!
# Parsing

A parser keeps a stack of positions beside the open loops of its builder. The two stay equally high
(`Parse.Sound`), so the builder never refuses a command of the parser.

* `parse_off_of_balanced`: without passes, a source text with balanced brackets parses to one
  instruction for each symbol that is not a move.
* `parse_cases`: with passes, a source text parses exactly if it does so without, with the same
  error if it does not, and with the optimisation of the plain program if it does.
-/

namespace Tapecode

/-- What a symbol tells a builder to do. -/
def Symbol.command : Symbol → Command
  | increment => .act (.change 1)
  | decrement => .act (.change (-1))
  | left => .move (-1)
  | right => .move 1
  | input => .act .input
  | output => .act .output
  | loopStart => .startLoop
  | loopEnd => .endLoop

namespace Parse

/-- The positions of the open loops after one more symbol. -/
def openedAfter (opened : List Position) (position : Position) : Symbol → List Position
  | .loopStart => position :: opened
  | .loopEnd => opened.tail
  | .increment | .decrement | .left | .right | .input | .output => opened

/-- The builder takes commands, and a position is known for each of its open loops. -/
structure Sound (p : Parse) : Prop where
  unfinished : p.builder.finalized = false
  depth : p.builder.loops.length = p.opened.length

theorem Sound.start (passes : Passes) : (start passes).Sound := ⟨rfl, rfl⟩

theorem Sound.loops_eq_nil_iff {p : Parse} (h : p.Sound) :
    p.builder.loops = [] ↔ p.opened = [] := by
  rw [← List.length_eq_zero_iff, ← List.length_eq_zero_iff, h.depth]

variable {a : Arithmetic}

/-- The parse after a symbol that is not a loop end, if the builder takes its command. -/
theorem step_of_call {p : Parse} {s : Symbol} (position : Position) {b : Builder}
    (hs : s ≠ .loopEnd) (h : p.builder.call s.command a = (.ok (), b)) :
    p.step s position a = .ok { p with builder := b, opened := openedAfter p.opened position s } := by
  cases s with
  | loopEnd => exact absurd rfl hs
  | loopStart => exact congrArg (afterCommand { p with opened := position :: p.opened }) h
  | increment | decrement | left | right | input | output => exact congrArg p.afterCommand h

theorem step_loopEnd_of_opened_eq_nil {p : Parse} (position : Position) (h : p.opened = []) :
    p.step .loopEnd position a = .error (.unmatchedCloseBracket position) := by
  simp only [step, h]

/-- **A parse takes every symbol** but a loop end where no loop is open. -/
theorem Sound.step {p : Parse} (h : p.Sound) {s : Symbol} (position : Position)
    (hs : s = .loopEnd → p.opened ≠ []) :
    ∃ p', p.step s position a = .ok p' ∧ p.builder.call s.command a = (.ok (), p'.builder) ∧
      p'.opened = openedAfter p.opened position s ∧ p'.builder.passes = p.builder.passes ∧
      p'.Sound := by
  have hloops : s.command = .endLoop → p.builder.loops ≠ [] := by
    intro hc
    rw [Ne, h.loops_eq_nil_iff]
    refine hs ?_
    cases s with
    | loopEnd => rfl
    | increment | decrement | left | right | input | output | loopStart => cases hc
  obtain ⟨b, hb, hdepth, hfin, hpasses⟩ := Builder.exists_call h.unfinished hloops
  by_cases hend : s = .loopEnd
  · subst hend
    obtain ⟨start, opened, hopened⟩ := List.exists_cons_of_ne_nil (hs rfl)
    obtain ⟨l, outer, hl⟩ := List.exists_cons_of_ne_nil (hloops rfl)
    obtain ⟨fate, b', hb', -⟩ := Builder.exists_endLoop h.unfinished hl
    have hcall : p.builder.call .endLoop a = (.ok (), b') := by
      simp only [Builder.call, hb', Except.map]
    obtain rfl : b' = b := congrArg Prod.snd (hcall.symm.trans hb)
    refine ⟨{ builder := b', opened, warnings := _ }, by simp only [Parse.step, hopened, hb']; rfl,
      hb, ?_, hpasses, hfin, ?_⟩
    · rw [hopened]
      rfl
    · rw [hdepth, h.depth, hopened]
      rfl
  · refine ⟨_, step_of_call position hend hb, hb, rfl, hpasses, hfin, ?_⟩
    rw [hdepth, h.depth]
    cases s with
    | loopEnd => exact absurd rfl hend
    | increment | decrement | left | right | input | output | loopStart => rfl

/-! ## Two parses of the same source text -/

/-- Two parses, the first of them without passes, have taken the same symbols. -/
structure InStep (a : Arithmetic) (plain live : Parse) : Prop where
  builders : Builder.InStep a plain.builder live.builder
  nested : plain.builder.Nested
  opened : live.opened = plain.opened
  depth : plain.builder.loops.length = plain.opened.length

namespace InStep

variable {plain live : Parse}

theorem start (a : Arithmetic) (passes : Passes) :
    InStep a (Parse.start .off) (.start passes) where
  builders := .start a passes
  nested := .start .off
  opened := rfl
  depth := rfl

theorem plain_sound (h : InStep a plain live) : plain.Sound :=
  ⟨h.builders.plain_open, h.depth⟩

theorem live_sound (h : InStep a plain live) : live.Sound :=
  ⟨h.builders.live_open, by rw [h.builders.depth, h.depth, h.opened]⟩

/-- **Parses that are in step stay in step.** -/
theorem step (h : InStep a plain live) {s : Symbol} (position : Position)
    (hs : s = .loopEnd → plain.opened ≠ []) :
    ∃ plain' live', plain.step s position a = .ok plain' ∧ live.step s position a = .ok live' ∧
      live'.builder.passes = live.builder.passes ∧ InStep a plain' live' := by
  obtain ⟨plain', hstep, hcall, hopened, -, hsound⟩ := h.plain_sound.step position hs
  obtain ⟨live', hstep', hcall', hopened', -⟩ :=
    h.live_sound.step position (s := s) (h.opened ▸ hs)
  obtain ⟨b, hb, hpasses, hbuilders⟩ := h.builders.call hcall
  obtain rfl : b = live'.builder := congrArg Prod.snd (hb.symm.trans hcall')
  refine ⟨plain', live', hstep, hstep', hpasses, hbuilders, ?_, ?_, hsound.depth⟩
  · exact h.nested.call h.builders.plain_open h.builders.off hcall
  · rw [hopened, hopened', h.opened]

/-- A parse that is over succeeds exactly if no loop is open. -/
theorem finish (h : InStep a plain live) (hopened : plain.opened = []) :
    ∃ plainProgram ws program ws', plain.finish = .ok (plainProgram, ws) ∧
      live.finish = .ok (program, ws') ∧ plainProgram.Balanced ∧
      plainProgram.optimize live.builder.passes a = .ok program := by
  have hplain : plain.builder.loops = [] := h.plain_sound.loops_eq_nil_iff.mpr hopened
  have hlive : live.builder.loops = [] := h.live_sound.loops_eq_nil_iff.mpr (h.opened.trans hopened)
  refine ⟨plain.builder.instructions, plain.warnings.toList, live.builder.instructions,
    live.warnings.toList, ?_, ?_, h.nested.balanced hplain, h.builders.optimize hplain⟩
  · simp only [Parse.finish, hopened, Builder.finalize_of_loops_eq_nil h.builders.plain_open hplain]
  · simp only [Parse.finish, h.opened.trans hopened,
      Builder.finalize_of_loops_eq_nil h.builders.live_open hlive]

/-- The rest of two parses in step: the same error, which is not the builder's, or a program and its
optimisation. -/
theorem run (h : InStep a plain live) (tokens : List Token) :
    (∃ e, plain.run tokens a = .error e ∧ live.run tokens a = .error e ∧
        ∀ cause, e ≠ .builder cause) ∨
      ∃ plainProgram ws program ws', plain.run tokens a = .ok (plainProgram, ws) ∧
        live.run tokens a = .ok (program, ws') ∧ plainProgram.Balanced ∧
        plainProgram.optimize live.builder.passes a = .ok program := by
  induction tokens generalizing plain live with
  | nil =>
    rcases hopened : plain.opened with _ | ⟨l, outer⟩
    · exact .inr (h.finish hopened)
    · refine .inl ⟨.unclosedLoop l l, ?_, ?_, nofun⟩
      · simp only [Parse.run, Parse.finish, hopened]
      · simp only [Parse.run, Parse.finish, h.opened, hopened]
  | cons t rest ih =>
    obtain ⟨kind, position⟩ := t
    cases kind with
    | endOfInput =>
      rcases hopened : plain.opened with _ | ⟨l, outer⟩
      · simp only [Parse.run, h.opened, hopened]
        exact .inr (h.finish hopened)
      · refine .inl ⟨.unclosedLoop position l, ?_, ?_, nofun⟩
        · simp only [Parse.run, hopened]
        · simp only [Parse.run, h.opened, hopened]
    | symbol s =>
      by_cases hs : s = .loopEnd → plain.opened ≠ []
      · obtain ⟨plain', live', hstep, hstep', hpasses, h'⟩ := h.step position hs
        simp only [Parse.run, hstep, hstep', ← hpasses]
        exact ih h'
      · obtain ⟨rfl, hopened⟩ : s = .loopEnd ∧ plain.opened = [] := by
          simpa using hs
        refine .inl ⟨.unmatchedCloseBracket position, ?_, ?_, nofun⟩
        · simp only [Parse.run, step_loopEnd_of_opened_eq_nil position hopened]
        · simp only [Parse.run, step_loopEnd_of_opened_eq_nil position (h.opened.trans hopened)]

end InStep

end Parse

/-- **Passes decide neither whether a source text parses nor how it fails**: either it fails with
the same error as without passes, which is not one of the builder's, or it parses to the
optimisation of a balanced program, the one that it parses to without. -/
theorem parse_cases (passes : Passes) (source : List UInt8) (a : Arithmetic := .exact) :
    (∃ e, parse .off source a = .error e ∧ parse passes source a = .error e ∧
        ∀ cause, e ≠ .builder cause) ∨
      ∃ plain ws program ws', parse .off source a = .ok (plain, ws) ∧
        parse passes source a = .ok (program, ws') ∧ plain.Balanced ∧
        plain.optimize passes a = .ok program :=
  (Parse.InStep.start a passes).run (tokenize source)

/-- What parses without passes parses with any. -/
theorem parse_of_parse_off (passes : Passes) {source : List UInt8} {a : Arithmetic}
    {plain : Program} {ws : List Warning} (h : parse .off source a = .ok (plain, ws)) :
    ∃ program ws', parse passes source a = .ok (program, ws') ∧ plain.Balanced ∧
      plain.optimize passes a = .ok program := by
  rcases parse_cases passes source a with ⟨e, herror, -⟩ | ⟨p, ws₀, program, ws', hok, hparse, hrest⟩
  · rw [h] at herror
    cases herror
  · rw [h] at hok
    obtain ⟨rfl, -⟩ := Prod.mk.inj (Except.ok.inj hok)
    exact ⟨program, ws', hparse, hrest⟩

/-- What parses with passes is the optimisation of a balanced program. -/
theorem exists_plain_of_parse {passes : Passes} {source : List UInt8} {program : Program}
    {ws : List Warning} (h : parse passes source = .ok (program, ws)) :
    ∃ plain : Program, plain.Balanced ∧ plain.optimize passes = .ok program := by
  rcases parse_cases passes source with ⟨e, -, herror, -⟩ | ⟨plain, ws₀, p, ws', -, hok, hrest⟩
  · rw [h] at herror
    cases herror
  · rw [h] at hok
    obtain ⟨rfl, -⟩ := Prod.mk.inj (Except.ok.inj hok)
    exact ⟨plain, hrest⟩

/-- A source text that does not parse has itself to blame. -/
theorem ne_builder_of_parse {passes : Passes} {source : List UInt8} {e : ParseError}
    (h : parse passes source = .error e) : ∀ cause, e ≠ .builder cause := by
  rcases parse_cases passes source with ⟨e', -, herror, he'⟩ | ⟨plain, ws, p, ws', -, hok, -⟩
  · rw [h] at herror
    obtain rfl := Except.error.inj herror
    exact he'
  · rw [h] at hok
    cases hok

/-! ## Without passes -/

/-- The symbols of a source text. -/
def symbolsOf (source : List UInt8) : List Symbol :=
  source.filterMap Symbol.ofByte?

namespace Language

open Builder

/-- The instructions that are written down for some symbols, one for each that is not a move, if the
pointer has moved by `offset` since the last bracket before them. -/
def plain (offset : Int) : List Symbol → Program
  | [] => []
  | s :: rest => (instruction? offset s.command).toList ++ plain (offsetAfter offset s.command) rest

/-- How far the pointer has moved since the last bracket, after some symbols. -/
def drift (offset : Int) : List Symbol → Int
  | [] => offset
  | s :: rest => drift (offsetAfter offset s.command) rest

theorem plain_append (offset : Int) (xs ys : List Symbol) :
    plain offset (xs ++ ys) = plain offset xs ++ plain (drift offset xs) ys := by
  induction xs generalizing offset with
  | nil => rfl
  | cons x xs ih => rw [List.cons_append, plain, plain, drift, ih, List.append_assoc]

theorem drift_append (offset : Int) (xs ys : List Symbol) :
    drift offset (xs ++ ys) = drift (drift offset xs) ys := by
  induction xs generalizing offset with
  | nil => rfl
  | cons x xs ih => rw [List.cons_append, drift, drift, ih]

/-- The pointer moves by one cell at a time. -/
theorem natAbs_drift_le (offset : Int) (xs : List Symbol) :
    (drift offset xs).natAbs ≤ offset.natAbs + xs.length := by
  induction xs generalizing offset with
  | nil => exact Nat.le_refl _
  | cons x xs ih =>
    have hrest := ih (offsetAfter offset x.command)
    have hone : (offsetAfter offset x.command).natAbs ≤ offset.natAbs + 1 := by
      cases x <;> simp only [Symbol.command, offsetAfter, Arithmetic.exact_add] <;> omega
    rw [drift, List.length_cons]
    omega

/-- Where the instructions of some symbols are cut, the symbols can be cut. -/
theorem exists_cut {offset : Int} {xs : List Symbol} {before after : Program} {i : Instruction}
    (h : plain offset xs = before ++ i :: after) :
    ∃ ys s zs, xs = ys ++ s :: zs ∧ plain offset ys = before ∧
      instruction? (drift offset ys) s.command = some i ∧
      plain (offsetAfter (drift offset ys) s.command) zs = after := by
  induction xs generalizing offset before with
  | nil => simp [plain] at h
  | cons x xs ih =>
    rw [plain] at h
    cases hx : instruction? offset x.command with
    | none =>
      rw [hx] at h
      obtain ⟨ys, s, zs, rfl, hys, hs, hzs⟩ := ih h
      refine ⟨x :: ys, s, zs, rfl, ?_, hs, hzs⟩
      rw [plain, hx, hys]
      rfl
    | some j =>
      rw [hx] at h
      cases before with
      | nil =>
        obtain ⟨rfl, hafter⟩ := List.cons.inj h
        exact ⟨[], x, xs, rfl, rfl, hx, hafter⟩
      | cons k before =>
        obtain ⟨rfl, htail⟩ := List.cons.inj h
        obtain ⟨ys, s, zs, rfl, hys, hs, hzs⟩ := ih htail
        refine ⟨x :: ys, s, zs, rfl, ?_, hs, hzs⟩
        rw [plain, hx, hys]
        rfl

theorem eq_of_instruction?_enter {offset o : Int} {s : Symbol}
    (h : instruction? offset s.command = some (.enter o)) : s = .loopStart := by
  cases s <;> simp_all [Symbol.command, instruction?]

theorem eq_of_instruction?_leave {offset o : Int} {s : Symbol}
    (h : instruction? offset s.command = some (.leave o)) : s = .loopEnd := by
  cases s <;> simp_all [Symbol.command, instruction?]

theorem ne_of_instruction?_act {offset o : Int} {e : Effect} {s : Symbol}
    (h : instruction? offset s.command = some (.act e o)) : s ≠ .loopStart ∧ s ≠ .loopEnd := by
  cases s <;> simp_all [Symbol.command, instruction?]

/-- Symbols that are neutral read from their start and, with the brackets exchanged, from their end.
-/
structure Matched (xs : List Symbol) : Prop where
  forth : Neutral .loopStart .loopEnd xs
  back : Neutral .loopEnd .loopStart xs.reverse

namespace Matched

theorem nil : Matched [] := ⟨.nil, .nil⟩

theorem append {xs ys : List Symbol} (hxs : Matched xs) (hys : Matched ys) :
    Matched (xs ++ ys) := by
  refine ⟨hxs.forth.append hys.forth, ?_⟩
  rw [List.reverse_append]
  exact hys.back.append hxs.back

theorem singleton {s : Symbol} (h : s ≠ .loopStart ∧ s ≠ .loopEnd) : Matched [s] :=
  ⟨.singleton h.1 h.2, .singleton h.2 h.1⟩

theorem pair {xs : List Symbol} (hxs : Matched xs) :
    Matched (.loopStart :: (xs ++ [.loopEnd])) := by
  refine ⟨hxs.forth.pair (by decide), ?_⟩
  have hreverse : (Symbol.loopStart :: (xs ++ [.loopEnd])).reverse =
      .loopEnd :: (xs.reverse ++ [.loopStart]) := by
    simp
  rw [hreverse]
  exact hxs.back.pair (by decide)

/-- Symbols for which nothing is written down are moves. -/
theorem of_plain_eq_nil {offset : Int} {xs : List Symbol} (h : plain offset xs = []) :
    Matched xs := by
  induction xs generalizing offset with
  | nil => exact nil
  | cons x xs ih =>
    rw [plain, List.append_eq_nil_iff] at h
    have hx : x ≠ .loopStart ∧ x ≠ .loopEnd := by
      refine ⟨?_, ?_⟩
      · rintro rfl
        cases h.1
      · rintro rfl
        cases h.1
    exact (singleton hx).append (ih h.2)

/-- **The symbols of a balanced program are matched.** -/
theorem of_plain {n : Nest} {offset : Int} {xs : List Symbol} (h : plain offset xs = n.program) :
    Matched xs := by
  induction n generalizing offset xs with
  | done => exact of_plain_eq_nil h
  | act e o rest ih =>
    have hcut : plain offset xs = [] ++ .act e o :: rest.program := h
    obtain ⟨ys, s, zs, rfl, hys, hs, hzs⟩ := exists_cut hcut
    have htail : Matched (s :: zs) := (singleton (ne_of_instruction?_act hs)).append (ih hzs)
    exact (of_plain_eq_nil hys).append htail
  | loop entry body exit rest ihBody ihRest =>
    have hcut : plain offset xs =
        [] ++ .enter entry :: (body.program ++ .leave exit :: rest.program) := h
    obtain ⟨ys, s, zs, rfl, hys, hs, hzs⟩ := exists_cut hcut
    obtain rfl := eq_of_instruction?_enter hs
    obtain ⟨us, t, vs, rfl, hus, ht, hvs⟩ := exists_cut hzs
    obtain rfl := eq_of_instruction?_leave ht
    have hloop : Matched (.loopStart :: (us ++ [.loopEnd]) ++ vs) :=
      (ihBody hus).pair.append (ihRest hvs)
    rw [List.cons_append, List.append_assoc] at hloop
    exact (of_plain_eq_nil hys).append hloop

end Matched

end Language

/-- The rest of a parse without passes writes down the plain instructions of the symbols. -/
theorem Parse.Sound.run_off {p : Parse} (h : p.Sound) (hoff : p.builder.passes = .off)
    (position : Position) (bytes : List UInt8)
    (hdepth : Language.depth? .loopStart .loopEnd p.opened.length (symbolsOf bytes) = some 0) :
    ∃ ws, p.run (tokenizeFrom position bytes) =
      .ok (p.builder.instructions ++ Language.plain p.builder.offset (symbolsOf bytes), ws) := by
  induction bytes generalizing p position with
  | nil =>
    have hopened : p.opened = [] := List.length_eq_zero_iff.mp (Option.some.inj hdepth)
    have hloops : p.builder.loops = [] := h.loops_eq_nil_iff.mpr hopened
    refine ⟨p.warnings.toList, ?_⟩
    simp only [tokenizeFrom, Parse.run, Parse.finish, hopened,
      Builder.finalize_of_loops_eq_nil h.unfinished hloops]
    exact congrArg (fun q => Except.ok (q, p.warnings.toList)) (List.append_nil _).symm
  | cons b rest ih =>
    cases hb : Symbol.ofByte? b with
    | none =>
      have hsymbols : symbolsOf (b :: rest) = symbolsOf rest := List.filterMap_cons_none hb
      rw [hsymbols] at hdepth ⊢
      simp only [tokenizeFrom, hb]
      exact ih h hoff _ hdepth
    | some s =>
      have hsymbols : symbolsOf (b :: rest) = s :: symbolsOf rest := List.filterMap_cons_some hb
      rw [hsymbols] at hdepth ⊢
      have hs : s = .loopEnd → p.opened ≠ [] := by
        rintro rfl hopened
        rw [hopened] at hdepth
        cases hdepth
      obtain ⟨p', hstep, hcall, hopened, hpasses, h'⟩ := h.step (a := .exact) position hs
      have hdepth' : Language.depth? .loopStart .loopEnd p'.opened.length (symbolsOf rest) =
          some 0 := by
        rw [hopened, ← hdepth, Language.depth?]
        cases s with
        | loopEnd =>
          rw [if_pos rfl, if_neg (by simpa using hs rfl)]
          simp [openedAfter]
        | loopStart => rfl
        | increment | decrement | left | right | input | output => rfl
      obtain ⟨ws, hrun⟩ := ih h' (hpasses.trans hoff) (position.after b) hdepth'
      obtain ⟨hinstructions, hoffset⟩ := Builder.call_off h.unfinished hoff hcall
      refine ⟨ws, ?_⟩
      simp only [tokenizeFrom, hb, Parse.run, hstep, hrun]
      rw [hinstructions, hoffset, Language.plain, List.append_assoc]

/-- **Without passes, a source text with balanced brackets parses**, to one instruction for each of
its symbols that is not a move. -/
theorem parse_off_of_balanced {source : List UInt8} (h : Language.Balanced (symbolsOf source)) :
    ∃ ws, parse .off source = .ok (Language.plain 0 (symbolsOf source), ws) :=
  (Parse.Sound.start .off).run_off rfl .start source h

end Tapecode
