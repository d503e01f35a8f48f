import Tapecode.Proofs.Layout
import Tapecode.Proofs.Soundness
import Tapecode.Session

/-!
# No source text causes an internal error

Some errors would point at a defect of the program itself: a builder or a compiler that refuses what
the parser made, a word that is no opcode, a jump out of the code. None of them can happen.

The counter of the machine is always the address of an instruction, or the end of the code
(`Machine.Driven.isAddress`). Operands are therefore never taken for instructions, whatever their
words look like, and every jump leads to an address. All of this holds of one step
(`Nest.step_isAddress`), and it does not depend on the console, so it also holds if the console is
changed from outside between two steps.

`no_internal_error` collects what follows for parsing, compiling, running and whole sessions.
-/

namespace Tapecode

open Machine

/-! ## Faults of single instructions -/

/-- A fault with which a piece of a run ends, if any, is none that only malformed code can cause. -/
def Outcome.Plain : Outcome → Prop
  | .done _ => True
  | .fault cause _ => cause.isInternal = false

theorem Machine.isInternal_of_locate {size : Nat} {target : Int} {cause : Fault}
    (h : locate size target = .error cause) : cause.isInternal = false := by
  unfold locate at h
  split at h
  · obtain rfl := Except.error.inj h
    rfl
  · split at h
    · cases h
    · obtain rfl := Except.error.inj h
      rfl

theorem State.visit_plain (settings : Settings) (offset : Int) {use : State → Nat → Outcome}
    (huse : ∀ s i, (use s i).Plain) (s : State) : (s.visit settings offset use).Plain := by
  unfold State.visit Settings.cutOff?
  cases settings.stepLimit with
  | none =>
    cases h : locate s.tape.size (s.pointer + offset) with
    | ok i => exact huse s.counted i
    | error cause => exact isInternal_of_locate h
  | some limit =>
    by_cases hlimit : limit ≤ s.steps
    · simp only [hlimit, ↓reduceIte]
      rfl
    · simp only [hlimit, ↓reduceIte]
      cases h : locate s.tape.size (s.pointer + offset) with
      | ok i => exact huse s.counted i
      | error cause => exact isInternal_of_locate h

theorem Effect.perform_plain (eof : EofPolicy) (e : Effect) (s : State) (i : Nat) :
    (e.perform eof s i).Plain := by
  cases e with
  | set v => trivial
  | change d => trivial
  | input =>
    unfold perform
    rcases s.console.readByte with ⟨_ | _ | b, console⟩
    · rfl
    · cases eof with
      | sentinel v => trivial
      | fail => rfl
    · trivial
  | output =>
    unfold perform
    rcases s.console.push (s.value i) with ⟨_ | _, console⟩
    · rfl
    · trivial

theorem Effect.run_plain (settings : Settings) (e : Effect) (offset : Int) (s : State) :
    (e.run settings offset s).Plain :=
  State.visit_plain settings offset (e.perform_plain settings.eof) s

theorem State.moveBy_plain (settings : Settings) (offset : Int) (s : State) :
    (s.moveBy settings offset).Plain := by
  have huse (t : State) (i : Nat) : (Outcome.done (t.movedTo i)).Plain := trivial
  exact State.visit_plain settings offset huse s

/-! ## Steps -/

/-- A run stands at an address of a program, and if it is over, then not with an internal fault. -/
def Progress.Sound (p : Program) : Progress → Prop
  | .running m => p.IsAddress m.counter
  | .halted fault m =>
    p.IsAddress m.counter ∧ ∀ cause, fault = some cause → cause.isInternal = false

theorem Outcome.Plain.sound {r : Outcome} (h : r.Plain) {p : Program} {here : Nat}
    (hhere : p.IsAddress here) {next : State → Nat} (hnext : ∀ t, p.IsAddress (next t)) :
    (r.progress here next).Sound p := by
  cases r with
  | done t => exact hnext t
  | fault cause t =>
    refine ⟨hhere, ?_⟩
    rintro cause' ⟨⟩
    exact h

theorem isAddress_afterTest {p : Program} {inside outside : Nat} (hinside : p.IsAddress inside)
    (houtside : p.IsAddress outside) (s : State) : p.IsAddress (afterTest inside outside s) := by
  unfold afterTest
  split
  · exact houtside
  · exact hinside

/-- **Every step leads from an address to an address**, whatever the console. -/
theorem Nest.step_isAddress (n : Nest) (settings : Settings) {m : Machine}
    (h : n.program.IsAddress m.counter) : (m.step n.encode.toArray settings).Sound n.program := by
  obtain ⟨before, after, hsplit, hcounter⟩ := h
  have hhere : n.program.IsAddress before.width := ⟨before, after, hsplit, rfl⟩
  let s : State := ⟨m.tape, m.pointer, m.steps, m.console⟩
  have hm : m = s.machine before.width := by
    rw [hcounter]
    rfl
  rw [hm]
  cases after with
  | nil =>
    rw [n.step_end _ (by rw [hsplit, List.append_nil]; rfl)]
    exact ⟨hhere, nofun⟩
  | cons i after =>
    have hnext : n.program.IsAddress (Program.width (before ++ [i])) :=
      ⟨before ++ [i], after, by rw [hsplit, List.append_assoc]; rfl, rfl⟩
    cases i with
    | act e o =>
      rw [n.step_act s hsplit]
      exact (e.run_plain settings o s).sound hhere fun _ => hnext
    | enter o =>
      obtain ⟨body, exit, rest, -, rfl, hstep⟩ := n.step_enter settings hsplit
      rw [hstep]
      refine (s.moveBy_plain settings o).sound hhere (isAddress_afterTest hnext ?_)
      exact ⟨before ++ .enter o :: (body ++ [.leave exit]), rest, by rw [hsplit]; simp, rfl⟩
    | leave o =>
      obtain ⟨outer, entry, body, -, rfl, hstep⟩ := n.step_leave settings hsplit
      rw [hstep]
      refine (s.moveBy_plain settings o).sound hhere (isAddress_afterTest ?_ hnext)
      exact ⟨outer ++ [.enter entry], body ++ .leave o :: after, by rw [hsplit]; simp, rfl⟩

/-! ## Runs -/

namespace Machine

/-- The machines that a run of `code` can come to if the console may be changed from outside between
its steps. -/
inductive Driven (code : Bytecode) (settings : Settings) : Machine → Prop
  | load (streams : Streams) : Driven code settings (.load settings streams)
  | step {m m' : Machine} (h : Driven code settings m)
      (hstep : m.step code.toArray settings = .running m') : Driven code settings m'
  | console {m : Machine} (h : Driven code settings m) (console : Console) :
      Driven code settings { m with console }

variable {code : Bytecode} {settings : Settings}

theorem Driven.of_reaches {m m' : Machine} (h : Driven code settings m)
    (hreaches : Reaches code.toArray settings m m') : Driven code settings m' := by
  obtain ⟨n, hn⟩ := hreaches
  induction n generalizing m with
  | zero =>
    obtain rfl := Progress.running.inj hn
    exact h
  | succ n ih =>
    rw [advance] at hn
    cases hstep : m.step code.toArray settings with
    | running m₁ =>
      rw [hstep] at hn
      exact ih (h.step hstep) hn
    | halted fault e =>
      rw [hstep] at hn
      cases hn

/-- **Every machine that a run comes to stands at an address.** -/
theorem Driven.isAddress {n : Nest} {m : Machine} (h : Driven n.encode settings m) :
    n.program.IsAddress m.counter := by
  induction h with
  | load streams => exact ⟨[], n.program, rfl, rfl⟩
  | step h hstep ih =>
    have hsound := n.step_isAddress settings ih
    rw [hstep] at hsound
    exact hsound
  | console h console ih => exact ih

theorem Driven.isInternal {n : Nest} {m e : Machine} {fault : Option Fault}
    (h : Driven n.encode settings m) (hstep : m.step n.encode.toArray settings = .halted fault e) :
    ∀ cause, fault = some cause → cause.isInternal = false := by
  have hsound := n.step_isAddress settings h.isAddress
  rw [hstep] at hsound
  exact hsound.2

/-- The last write adds no internal fault. -/
theorem isInternal_finish {m m' : Machine} {fault fault' : Option Fault}
    (h : ∀ cause, fault = some cause → cause.isInternal = false)
    (hfinish : m.finish fault = (fault', m')) :
    ∀ cause, fault' = some cause → cause.isInternal = false := by
  have hfst := finish_fst m fault
  rw [hfinish] at hfst
  rcases hflush : m.console.flush.1 with e | _
  · rw [hflush] at hfst
    obtain rfl : fault' = fault.or (some (.io e)) := hfst
    cases fault with
    | none =>
      rintro cause ⟨⟩
      rfl
    | some cause' => exact h
  · rw [hflush] at hfst
    obtain rfl : fault' = fault := hfst
    exact h

end Machine

theorem Fault.ne_of_isInternal {fault : Option Fault}
    (h : ∀ cause, fault = some cause → cause.isInternal = false) :
    (∀ address word, fault ≠ some (.invalidOpcode address word)) ∧
      ∀ address, fault ≠ some (.invalidJump address) := by
  refine ⟨?_, ?_⟩
  · intro address word hfault
    exact absurd (h _ hfault) (by simp [Fault.isInternal])
  · intro address hfault
    exact absurd (h _ hfault) (by simp [Fault.isInternal])

theorem Executes.isInternal {n : Nest} {settings : Settings} {streams : Streams}
    {fault : Option Fault} {m : Machine} (h : Executes n.encode settings streams fault m) :
    ∀ cause, fault = some cause → cause.isInternal = false := by
  obtain ⟨cause, last, hhalts, hfinish⟩ := h
  obtain ⟨m', hreaches, hstep⟩ := hhalts.exists_last
  have hdriven := (Driven.load streams).of_reaches hreaches
  exact isInternal_finish (hdriven.isInternal hstep) hfinish

/-! ## From source text to exit code -/

/-- What parses compiles. -/
theorem exists_nest_of_parse {passes : Passes} {source : List UInt8} {program : Program}
    {ws : List Warning} (h : parse passes source = .ok (program, ws)) :
    ∃ n : Nest, n.program = program ∧ program.compile = .ok n.encode := by
  obtain ⟨plain, hplain, hprogram⟩ := exists_plain_of_parse h
  obtain ⟨q, -, -, hq, ⟨n, rfl⟩, -⟩ := hplain.optimize_refines passes
  rw [hprogram] at hq
  obtain rfl := Except.ok.inj hq
  exact ⟨n, rfl, n.compile_program⟩

theorem isInternal_parse {e : ParseError} (h : ∀ cause, e ≠ .builder cause) :
    (Error.parse e).isInternal = false := by
  cases e with
  | unmatchedCloseBracket position => rfl
  | unclosedLoop position opened => rfl
  | builder cause => exact absurd rfl (h cause)

/-- Compiling a source text and running its code fails with `e`. -/
def Fails (passes : Passes) (source : List UInt8) (settings : Settings) (streams : Streams)
    (e : Error) : Prop :=
  compileSource passes source = .error e ∨
    ∃ code fault m, compileSource passes source = .ok code ∧
      Executes code settings streams (some fault) m ∧ e = .runtime fault

/-- A source text does not parse, or it compiles to the encoding of a nest. -/
theorem compileSource_cases (passes : Passes) (source : List UInt8) :
    (∃ e, compileSource passes source = .error (.parse e) ∧ ∀ cause, e ≠ .builder cause) ∨
      ∃ n : Nest, compileSource passes source = .ok n.encode := by
  cases hparse : parse passes source with
  | error e => exact .inl ⟨e, by rw [compileSource, hparse], ne_builder_of_parse hparse⟩
  | ok result =>
    obtain ⟨program, ws⟩ := result
    obtain ⟨n, -, hcompile⟩ := exists_nest_of_parse hparse
    exact .inr ⟨n, by simp only [compileSource, hparse, hcompile]⟩

theorem Fails.isInternal {passes : Passes} {source : List UInt8} {settings : Settings}
    {streams : Streams} {e : Error} (h : Fails passes source settings streams e) :
    e.isInternal = false := by
  rcases compileSource_cases passes source with ⟨e', herror, he'⟩ | ⟨n, hok⟩
  · rcases h with h | ⟨code, fault, m, h, -⟩
    · rw [herror] at h
      obtain rfl := Except.error.inj h
      exact isInternal_parse he'
    · rw [herror] at h
      cases h
  · rcases h with h | ⟨code, fault, m, h, hexec, rfl⟩
    · rw [hok] at h
      cases h
    · rw [hok] at h
      obtain rfl := Except.ok.inj h
      exact hexec.isInternal fault rfl

namespace Session

/-- The codes with which an invocation can exit, whatever its arguments have been read as and
whatever the outside does with its streams. -/
inductive Exits (contents : Except SystemError (List UInt8)) (styled : Bool) :
    Except UsageError Request → Nat → Prop
  | usage (e : UsageError) : Exits contents styled (.error e) (usage e).exitCode
  | version : Exits contents styled (.ok .version) version.exitCode
  | help : Exits contents styled (.ok .help) help.exitCode
  | reply {o : Options} {r : Reply} (hstart : start o contents styled = .reply r) :
      Exits contents styled (.ok (.run o)) r.exitCode
  | unstarted {o : Options} {code : Bytecode} {settings : Settings} {warnings : String}
      (hstart : start o contents styled = .run code settings warnings)
      (hload : Machine.load? settings {} = none) :
      Exits contents styled (.ok (.run o)) unstarted.exitCode
  | ended {o : Options} {code : Bytecode} {settings : Settings} {warnings : String}
      {m last m' : Machine} {cause fault : Option Fault}
      (hstart : start o contents styled = .run code settings warnings)
      (hdriven : Driven code settings m)
      (hstep : m.step code.toArray settings = .halted cause last)
      (hfinish : last.finish cause = (fault, m')) :
      Exits contents styled (.ok (.run o)) (ended o fault styled).exitCode
  | aborted {o : Options} {code : Bytecode} {settings : Settings} {warnings text : String}
      (hstart : start o contents styled = .run code settings warnings) :
      Exits contents styled (.ok (.run o)) (ended o (some (.io (.system text))) styled).exitCode

theorem exitCode_failure {path : String} {source : List UInt8} {e : Error} {styled : Bool}
    (h : e.isInternal = false) : (failure path source e styled).exitCode = 1 := by
  simp [failure, h]

theorem exitCode_ended (o : Options) (styled : Bool) {fault : Option Fault}
    (h : ∀ cause, fault = some cause → cause.isInternal = false) :
    (ended o fault styled).exitCode ≠ 3 := by
  cases fault with
  | none => simp [ended]
  | some cause =>
    rw [ended, exitCode_failure (e := .runtime cause) (h cause rfl)]
    decide

/-- What a session replies at once is no internal error, and what it runs is the encoding of a nest.
-/
theorem start_cases (o : Options) (contents : Except SystemError (List UInt8)) (styled : Bool) :
    (∃ r, start o contents styled = .reply r ∧ r.exitCode ≠ 3) ∨
      ∃ (n : Nest) (warnings : String),
        start o contents styled = .run n.encode o.settings warnings := by
  cases contents with
  | error e => exact .inl ⟨_, rfl, by simp [unreadable]⟩
  | ok source =>
    rw [start, plan]
    cases hparse : parse (if o.noOptimize then .off else .all) source with
    | error e =>
      refine .inl ⟨_, rfl, ?_⟩
      rw [exitCode_failure (isInternal_parse (ne_builder_of_parse hparse))]
      decide
    | ok result =>
      obtain ⟨program, ws⟩ := result
      obtain ⟨n, -, hcompile⟩ := exists_nest_of_parse hparse
      simp only [hcompile]
      split
      · exact .inl ⟨_, rfl, by simp⟩
      · split
        · exact .inl ⟨_, rfl, by simp⟩
        · split
          · exact .inl ⟨_, rfl, by simp⟩
          · exact .inr ⟨n, _, rfl⟩

theorem Exits.ne_three {request : Except UsageError Request}
    {contents : Except SystemError (List UInt8)} {styled : Bool} {code : Nat}
    (h : Exits contents styled request code) : code ≠ 3 := by
  cases h with
  | usage e => simp [Session.usage]
  | version => decide
  | help => decide
  | unstarted _ _ => decide
  | reply hstart =>
    rename_i o r
    rcases start_cases o contents styled with ⟨r', hr', hcode⟩ | ⟨n, warnings, hrun⟩
    · rw [hstart] at hr'
      cases hr'
      exact hcode
    · rw [hstart] at hrun
      cases hrun
  | ended hstart hdriven hstep hfinish =>
    rename_i o code settings warnings m last m' cause fault
    rcases start_cases o contents styled with ⟨r', hr', -⟩ | ⟨n, warnings', hrun⟩
    · rw [hstart] at hr'
      cases hr'
    · rw [hstart] at hrun
      cases hrun
      exact exitCode_ended o styled (isInternal_finish (hdriven.isInternal hstep) hfinish)
  | aborted hstart =>
    refine exitCode_ended _ styled ?_
    rintro cause ⟨⟩
    rfl

end Session

/-- **No source text causes an internal error.** Parsing does not fail with an error of the builder,
and what parses compiles. The counter is always the address of an instruction or the end of the
code, in every machine that a run comes to and in the one that it leaves, and no execution ends with
an invalid opcode or an invalid jump. So no error of compiling and running is internal, and no
invocation exits with the code for internal errors, whatever options its arguments have been read
as. -/
theorem no_internal_error (passes : Passes) (source : List UInt8) :
    ((∃ e, parse passes source = .error e ∧ ∀ cause, e ≠ .builder cause) ∨
      ∃ program ws code, parse passes source = .ok (program, ws) ∧ program.compile = .ok code ∧
        code.length = program.width ∧ ∀ settings,
          (∀ m, Driven code settings m → program.IsAddress m.counter) ∧
          (∀ m fault e, Driven code settings m → m.step code.toArray settings = .halted fault e →
            program.IsAddress e.counter) ∧
          ∀ streams fault m, Executes code settings streams fault m →
            (∀ address word, fault ≠ some (.invalidOpcode address word)) ∧
              ∀ address, fault ≠ some (.invalidJump address)) ∧
    (∀ settings streams e, Fails passes source settings streams e → e.isInternal = false) ∧
    ∀ request contents styled code, Session.Exits contents styled request code → code ≠ 3 := by
  refine ⟨?_, fun settings streams e h => h.isInternal,
    fun request contents styled code h => h.ne_three⟩
  cases hparse : parse passes source with
  | error e => exact .inl ⟨e, rfl, ne_builder_of_parse hparse⟩
  | ok result =>
    obtain ⟨program, ws⟩ := result
    obtain ⟨n, rfl, hcompile⟩ := exists_nest_of_parse hparse
    refine .inr ⟨n.program, ws, n.encode, rfl, hcompile, n.length_encode,
      fun settings => ⟨?_, ?_, ?_⟩⟩
    · intro m hdriven
      exact hdriven.isAddress
    · intro m fault e hdriven hstep
      have hsound := n.step_isAddress settings hdriven.isAddress
      rw [hstep] at hsound
      exact hsound.1
    · intro streams fault m hexec
      exact Fault.ne_of_isInternal hexec.isInternal

end Tapecode
