import Tapecode.Proofs.Expansion
import Tapecode.Proofs.Optimization
import Tapecode.Proofs.Reading

/-!
# Source texts of programs

`Program.source` gives a source text for a program. Parsed without passes, it is the expanded
program (`Nest.parse_source`): the moves of the source text are found again in the offsets.

So the source text does what the program does. What this means for the code of both is said by
`Bytecode.FollowedBy`, in both directions: they end in the same way, after the same calls on the
streams, or both run for ever and make the same calls on their way. `Program.source_equivalent` is
the result.
-/

namespace Tapecode

open Machine Behaviour

/-! ## Symbols -/

namespace Language

open Builder

/-- Symbols of effects, each at the same offset. -/
theorem plain_replicate_act {s : Symbol} {e : Effect} (hs : s.command = .act e) (n : Nat)
    (offset : Int) :
    plain offset (List.replicate n s) = (Nest.times n e offset).program ∧
      drift offset (List.replicate n s) = offset := by
  induction n with
  | zero => exact ⟨rfl, rfl⟩
  | succ n ih =>
    rw [List.replicate_succ, plain, drift, hs]
    exact ⟨congrArg (Instruction.act e offset :: ·) ih.1, ih.2⟩

/-- Moves leave nothing but their distance. -/
theorem plain_replicate_move {s : Symbol} {d : Int} (hs : s.command = .move d) (n : Nat)
    (offset : Int) :
    plain offset (List.replicate n s) = [] ∧
      drift offset (List.replicate n s) = offset + n * d := by
  induction n generalizing offset with
  | zero => exact ⟨rfl, by simp [drift]⟩
  | succ n ih =>
    rw [List.replicate_succ, plain, drift, hs]
    refine ⟨(ih (offset + d)).1, (ih (offset + d)).2.trans ?_⟩
    rw [Int.natCast_succ, Int.add_mul]
    omega

theorem plain_moves (offset distance : Int) :
    plain offset (Program.moves distance) = [] ∧
      drift offset (Program.moves distance) = offset + distance := by
  unfold Program.moves Program.repeated
  split
  · obtain ⟨hplain, hdrift⟩ := plain_replicate_move (s := .left) rfl distance.natAbs offset
    exact ⟨hplain, hdrift.trans (by omega)⟩
  · obtain ⟨hplain, hdrift⟩ := plain_replicate_move (s := .right) rfl distance.natAbs offset
    exact ⟨hplain, hdrift.trans (by omega)⟩

theorem plain_units (offset : Int) (amount : Int8) :
    plain offset (Program.units amount) = (Nest.units amount offset).program ∧
      drift offset (Program.units amount) = offset := by
  unfold Program.units Program.repeated Nest.units
  split
  · exact plain_replicate_act (s := .decrement) rfl _ offset
  · exact plain_replicate_act (s := .increment) rfl _ offset

/-- The symbols of an effect, with the pointer on its cell, are those of the expanded effect. -/
theorem plain_symbolsAt_act (e : Effect) (k o : Int) :
    plain (o - k) (Program.symbolsAt (.act e o)) = (e.expand (o - k)).program ∧
      drift (o - k) (Program.symbolsAt (.act e o)) = o - e.settle k o := by
  cases e with
  | change d => exact plain_units (o - k) d
  | input => exact ⟨rfl, rfl⟩
  | output => exact ⟨rfl, rfl⟩
  | set v =>
    obtain ⟨hplain, hdrift⟩ := plain_units 0 v
    rw [Program.symbolsAt, plain_append, drift_append]
    refine ⟨?_, hdrift.trans (Int.sub_self o).symm⟩
    rw [show drift (o - k) [.loopStart, .decrement, .loopEnd] = 0 from rfl, hplain]
    rfl

/-- **The symbols of a nest are those of the expanded nest.** The pointer stands `here`, counted from
the last delimiter of the nest, and at `here - k`, counted from the last bracket of the symbols. -/
theorem plain_symbolsFrom (n : Nest) (k here : Int) :
    ∃ there, ∀ tail, plain (here - k) (Program.symbolsFrom here (n.program ++ tail)) =
      (n.expand k).program ++ plain (there - n.settle k) (Program.symbolsFrom there tail) := by
  induction n generalizing k here with
  | done => exact ⟨here, fun _ => rfl⟩
  | act e o rest ih =>
    obtain ⟨there, hrest⟩ := ih (e.settle k o) o
    obtain ⟨hmoves, hmoved⟩ := plain_moves (here - k) (o - here)
    obtain ⟨hplain, hdrift⟩ := plain_symbolsAt_act e k o
    refine ⟨there, fun tail => ?_⟩
    have hcell : here - k + (o - here) = o - k := by omega
    rw [hcell] at hmoved
    calc plain (here - k) (Program.moves (o - here) ++ Program.symbolsAt (.act e o) ++
          Program.symbolsFrom o (rest.program ++ tail))
        = (e.expand (o - k)).program ++ plain (o - e.settle k o)
            (Program.symbolsFrom o (rest.program ++ tail)) := by
          rw [plain_append, plain_append, drift_append, hmoves, hmoved, hplain, hdrift,
            List.nil_append]
      _ = _ := by rw [hrest, Nest.expand, Nest.program_append, List.append_assoc]; rfl
  | loop entry body exit rest ihBody ihRest =>
    obtain ⟨inner, hbody⟩ := ihBody 0 0
    obtain ⟨there, hrest⟩ := ihRest 0 0
    obtain ⟨hmoves, hmoved⟩ := plain_moves (here - k) (entry - here)
    obtain ⟨hmoves', hmoved'⟩ := plain_moves (inner - body.settle 0) (exit - inner)
    refine ⟨there, fun tail => ?_⟩
    have hentry : here - k + (entry - here) = entry - k := by omega
    have hexit : inner - body.settle 0 + (exit - inner) = exit - body.settle 0 := by omega
    rw [hentry] at hmoved
    rw [hexit] at hmoved'
    have hinside := hbody (.leave exit :: (rest.program ++ tail))
    have hbehind := hrest tail
    rw [Int.sub_zero] at hinside hbehind
    have hprogram : (Nest.loop entry body exit rest).program ++ tail =
        .enter entry :: (body.program ++ .leave exit :: (rest.program ++ tail)) := by
      simp [Nest.program]
    rw [hprogram]
    calc plain (here - k) (Program.moves (entry - here) ++ [.loopStart] ++
          Program.symbolsFrom 0 (body.program ++ .leave exit :: (rest.program ++ tail)))
        = .enter (entry - k) :: plain 0
            (Program.symbolsFrom 0 (body.program ++ .leave exit :: (rest.program ++ tail))) := by
          rw [plain_append, plain_append, drift_append, hmoves, hmoved]
          rfl
      _ = .enter (entry - k) :: ((body.expand 0).program ++ plain (inner - body.settle 0)
            (Program.moves (exit - inner) ++ [.loopEnd] ++
              Program.symbolsFrom 0 (rest.program ++ tail))) := by
          rw [hinside]
          rfl
      _ = .enter (entry - k) :: ((body.expand 0).program ++ .leave (exit - body.settle 0) ::
            plain 0 (Program.symbolsFrom 0 (rest.program ++ tail))) := by
          rw [plain_append, plain_append, drift_append, hmoves', hmoved']
          rfl
      _ = _ := by
          rw [hbehind]
          simp [Nest.expand, Nest.program, Nest.settle]

end Language

theorem symbolsOf_source (p : Program) : symbolsOf p.source = p.symbols := by
  have hread : Symbol.ofByte? ∘ Symbol.byte = some := funext Symbol.ofByte?_byte
  rw [symbolsOf, Program.source, List.filterMap_map, hread, List.filterMap_some]

/-- **Parsed without passes, the source text of a program is the expanded program.** -/
theorem Nest.parse_source (n : Nest) :
    ∃ ws, parse .off n.program.source = .ok ((n.expand 0).program, ws) := by
  have hplain : Language.plain 0 (symbolsOf n.program.source) = (n.expand 0).program := by
    obtain ⟨there, h⟩ := Language.plain_symbolsFrom n 0 0
    have h := h []
    rw [List.append_nil, Int.sub_zero] at h
    rw [symbolsOf_source, Program.symbols, h]
    exact List.append_nil _
  have hbalanced : Language.Balanced (symbolsOf n.program.source) :=
    (Language.Matched.of_plain hplain).forth 0
  obtain ⟨ws, hparse⟩ := parse_off_of_balanced hbalanced
  rw [hplain] at hparse
  exact ⟨ws, hparse⟩

/-! ## Programs without changes by nothing -/

theorem Program.effective_append {p q : Program} :
    Effective (p ++ q) ↔ p.Effective ∧ q.Effective := by
  simp only [Effective, List.mem_append, not_or, forall_and]

theorem Program.effective_singleton {i : Instruction} (h : ∀ o, i ≠ .act (.change 0) o) :
    Effective [i] :=
  fun o ho => h o (List.mem_singleton.mp ho).symm

/-- Symbols change a cell by one. -/
theorem Language.plain_effective (offset : Int) (xs : List Symbol) :
    Program.Effective (plain offset xs) := by
  induction xs generalizing offset with
  | nil => simp [plain, Program.Effective]
  | cons x xs ih =>
    refine Program.effective_append.mpr ⟨?_, ih _⟩
    intro o
    cases x <;> simp [Symbol.command, Builder.instruction?]

namespace Nest

variable {clears : Int8 → Prop} {outer : List OpenLoop} {r r' n : Nest}

theorem effective_append_act {e : Effect} {o : Int} :
    Program.Effective (r ++ .act e o .done).program ↔
      Program.Effective r.program ∧ e ≠ .change 0 := by
  rw [program_append, Program.effective_append, and_congr_right_iff]
  refine fun _ => ⟨fun h => (effective_act h).1, fun he => Program.effective_singleton ?_⟩
  rintro o' ⟨⟩
  exact he rfl

/-- What a builder makes of effective instructions is effective. -/
theorem Takes.effective {e : Effect} {o : Int} (h : r.Takes o e r') (he : e ≠ .change 0)
    (hr : Program.Effective r.program) : Program.Effective r'.program := by
  induction h with
  | append => exact effective_append_act.mpr ⟨hr, he⟩
  | overwrite _ _ _ ih => exact ih he (effective_append_act.mp hr).1
  | merge _ _ hleft => exact effective_append_act.mpr ⟨(effective_append_act.mp hr).1, hleft⟩
  | cancel => exact (effective_append_act.mp hr).1

theorem Closes.effective {body : Nest} {entry exit base : Int}
    (h : Closes clears outer r entry body exit r' base) (hr : Program.Effective r.program)
    (hbody : Program.Effective body.program) : Program.Effective r'.program := by
  cases h with
  | removed => exact hr
  | cleared _ htakes => exact htakes.effective nofun hr
  | kept =>
    have henter : Program.Effective [.enter entry] := Program.effective_singleton nofun
    have hleave : Program.Effective [.leave exit] := Program.effective_singleton nofun
    have hloop := Program.effective_append.mpr
      ⟨henter, Program.effective_append.mpr ⟨hbody, hleave⟩⟩
    rw [program_append]
    exact Program.effective_append.mpr ⟨hr, hloop⟩

theorem Simplifies.effective {base base' : Int} (h : Simplifies clears outer r base n r' base')
    (hr : Program.Effective r.program) (hn : Program.Effective n.program) :
    Program.Effective r'.program := by
  induction h with
  | done => exact hr
  | act htakes _ ih =>
    obtain ⟨he, hrest⟩ := effective_act hn
    exact ih (htakes.effective he hr) hrest
  | loop _ hclose _ ihBody ihRest =>
    obtain ⟨hbody, hrest⟩ := effective_loop hn
    exact ihRest (hclose.effective hr (ihBody (by simp [program, Program.Effective]) hbody)) hrest

end Nest

/-- **What parses has no change by nothing**, whatever the passes. -/
theorem effective_of_parse {passes : Passes} {source : List UInt8} {program : Program}
    {ws : List Warning} (h : parse passes source = .ok (program, ws)) :
    program.Balanced ∧ program.Effective := by
  rcases parse_cases passes source with
    ⟨e, -, he, -⟩ | ⟨plain, ws₀, program', ws', hplain, hparse, ⟨n, rfl⟩, hoptimize⟩
  · rw [h] at he
    cases he
  · obtain ⟨rfl, -⟩ := Prod.mk.inj (Except.ok.inj (hparse.symm.trans h))
    obtain ⟨n', base, hoptimize', hsimplifies⟩ :=
      n.optimize_simplifies passes (fun _ => True) (by simp)
    obtain rfl := Except.ok.inj (hoptimize'.symm.trans hoptimize)
    refine ⟨⟨n', rfl⟩, hsimplifies.effective (by simp [Nest.program, Program.Effective]) ?_⟩
    rw [eq_plain_of_parse_off hplain]
    exact Language.plain_effective 0 _

/-! ## Code -/

/-- Seen from outside, `code'` does what `code` does. -/
structure Bytecode.FollowedBy (settings : Settings) (streams : Streams) (code code' : Bytecode) :
    Prop where
  /-- Where an execution ends, so does the other one, in the same way and after the same calls. -/
  ends : ∀ fault m, Executes code settings streams fault m →
    ∃ m', Executes code' settings streams fault m' ∧
      m'.console.streams.events = m.console.streams.events ∧ (fault = none → m'.tape = m.tape)
  /-- Where it runs for ever, so does the other one, and makes every call sooner or later. -/
  forever : RunsForever code.toArray settings (.load settings streams) →
    RunsForever code'.toArray settings (.load settings streams) ∧
      ∀ m, Reaches code.toArray settings (.load settings streams) m →
        ∃ m', Reaches code'.toArray settings (.load settings streams) m' ∧ m.calls <+: m'.calls

/-- A run of which no fault is reported has none. -/
theorem Outcome.exists_done_of_reported {r : Outcome} (h : r.reported = none) :
    ∃ s, r = .done s := by
  cases r with
  | done s => exact ⟨s, rfl⟩
  | fault cause s =>
    unfold Outcome.reported at h
    split at h <;> cases h

theorem Matches.reported_eq {shift : Int} {r r' : Outcome} (h : Matches shift r r') :
    r'.reported = r.reported := by
  rw [Outcome.reported, Outcome.reported, h.console_eq, h.cause_eq]

namespace Nest

variable {settings : Settings} {n : Nest}

/-- **The expanded program follows the program.** -/
theorem followedBy_expand (hlimit : settings.stepLimit = none)
    (hn : Program.Effective n.program) (streams : Streams) :
    Bytecode.FollowedBy settings streams n.encode (n.expand 0).encode where
  ends fault m hexec := by
    obtain ⟨r', address', hrun', hfinish'⟩ := runs_of_executes hexec
    obtain ⟨r, hrun, hmatch⟩ := n.expand_expands hlimit hn 0 _ _ _ (.refl _) hrun'
    obtain ⟨address, hexec'⟩ := executes_of_runs hrun
    obtain ⟨hfault, hleaves⟩ := r.finish_machine address
    obtain ⟨hfault', hleaves'⟩ := r'.finish_machine address'
    rw [hfinish'] at hfault' hleaves'
    rw [hfault, ← hmatch.reported_eq, ← hfault'] at hexec'
    refine ⟨_, hexec', ?_, ?_⟩
    · rw [hleaves.console, hleaves'.console, hmatch.console_eq]
    · intro hnone
      obtain ⟨t, rfl⟩ := Outcome.exists_done_of_reported (hfault'.symm.trans hnone)
      obtain ⟨s, rfl, hrel⟩ := hmatch.exists_done_left
      rw [hleaves.tape, hleaves'.tape]
      exact hrel.tape.symm
  forever hforever := by
    have hvisits {before : Program} {t : State}
        (h : n.Visits settings (.initial settings streams) before t) :=
      h.expand hlimit hn (.refl _)
    refine ⟨(endless_iff (s := .initial settings streams)).mp fun k => ?_, fun m hm => ?_⟩
    · obtain ⟨before, t, ht, hk⟩ :=
        (endless_iff (s := .initial settings streams)).mpr hforever k
      obtain ⟨before', v, l, hv, hrel⟩ := hvisits ht
      exact ⟨before', v, hv, Nat.le_trans hk hrel.steps⟩
    · obtain ⟨before, t, ht, rfl⟩ := (reaches_iff (s := .initial settings streams)).mp hm
      obtain ⟨before', v, l, hv, hrel⟩ := hvisits ht
      refine ⟨v.machine before'.width,
        (reaches_iff (s := .initial settings streams)).mpr ⟨before', v, hv, rfl⟩, ?_⟩
      have hcalls : t.console.streams.events.toList = v.console.streams.events.toList := by
        rw [hrel.console]
      exact ⟨[], (List.append_nil _).trans hcalls⟩

/-- **The program follows the expanded program.** It ends where the expanded program does, since
otherwise the expanded program, which follows it, would run for ever. -/
theorem expand_followedBy (hlimit : settings.stepLimit = none)
    (hn : Program.Effective n.program) (streams : Streams) :
    Bytecode.FollowedBy settings streams (n.expand 0).encode n.encode := by
  have hfollows := followedBy_expand hlimit hn streams
  refine ⟨fun fault m hexec => ?_, fun hforever => ?_⟩
  · rcases executes_or_runsForever n.encode settings streams with ⟨fault', m', hexec'⟩ | hforever
    · obtain ⟨m'', hexec'', hevents, htape⟩ := hfollows.ends fault' m' hexec'
      obtain ⟨rfl, rfl⟩ := hexec.unique hexec''
      exact ⟨m', hexec', hevents.symm, fun hnone => (htape hnone).symm⟩
    · exact absurd (hfollows.forever hforever).1 hexec.not_runsForever
  · rcases executes_or_runsForever n.encode settings streams with ⟨fault', m', hexec'⟩ | hforever'
    · obtain ⟨m'', hexec'', -⟩ := hfollows.ends fault' m' hexec'
      exact absurd hforever hexec''.not_runsForever
    refine ⟨hforever', fun m hm => ?_⟩
    -- after as many steps, the program has made at least the same calls
    obtain ⟨j, hj⟩ := hm
    obtain ⟨m', hm'⟩ := hforever' j
    obtain ⟨before, t, ht, rfl⟩ := (reaches_iff (s := .initial settings streams)).mp ⟨j, hm'⟩
    obtain ⟨before', v, l, hv, hrel⟩ := ht.expand hlimit hn (.refl _)
    obtain ⟨k, hk⟩ := (reaches_iff (s := .initial settings streams)).mpr ⟨before', v, hv, rfl⟩
    have hjk : j ≤ k := by
      have hsteps : t.steps = 0 + j := (advance_running hm').1
      have hsteps' : v.steps = 0 + k := (advance_running hk).1
      have hle := hrel.steps
      omega
    obtain ⟨i, rfl⟩ := Nat.exists_eq_add_of_le hjk
    have hk : advance _ settings (j + i) (.load settings streams) = _ := hk
    rw [advance_add_of_running i hj] at hk
    have hcalls : m.calls <+: v.console.streams.events.toList := (advance_running hk).2
    rw [← hrel.console] at hcalls
    exact ⟨_, ⟨j, hm'⟩, hcalls⟩

end Nest

/-! ## Whole programs -/

/-- **The source text of a program does what the program does.** A balanced program without changes
by nothing has a source text that parses without passes. Where there is no step limit, the code of
this source text and the code of the program follow each other on all streams. Every program that a
source text parses to, whatever the passes, is balanced and has no changes by nothing. -/
theorem Program.source_equivalent :
    (∀ p : Program, p.Balanced → p.Effective →
      ∃ plain ws code code', parse .off p.source = .ok (plain, ws) ∧ plain.compile = .ok code ∧
        p.compile = .ok code' ∧ ∀ settings streams, settings.stepLimit = none →
          Bytecode.FollowedBy settings streams code code' ∧
            Bytecode.FollowedBy settings streams code' code) ∧
      ∀ passes source program ws, parse passes source = .ok (program, ws) →
        program.Balanced ∧ program.Effective := by
  refine ⟨?_, fun _ _ _ _ hparse => effective_of_parse hparse⟩
  rintro _ ⟨n, rfl⟩ hn
  obtain ⟨ws, hparse⟩ := n.parse_source
  refine ⟨_, ws, (n.expand 0).encode, n.encode, hparse, Nest.compile_program _, n.compile_program,
    fun settings streams hlimit => ?_⟩
  exact ⟨Nest.expand_followedBy hlimit hn streams, Nest.followedBy_expand hlimit hn streams⟩

/-- The source text `>++[-]++.` is optimised to a set and an output, whose own source text is
`>[-]++.`. -/
theorem Program.source_equivalent_of_set :
    ∃ p ws code m, parse .all ([.right, .increment, .increment, .loopStart, .decrement, .loopEnd,
        .increment, .increment, .output].map Symbol.byte) = .ok (p, ws) ∧
      p.source = [.right, .loopStart, .decrement, .loopEnd, .increment, .increment,
        .output].map Symbol.byte ∧
      (∃ plain ws', parse .off p.source = .ok (plain, ws') ∧ plain.compile = .ok code) ∧
      Executes code { tapeSize := 2 } {} none m ∧ m.tape = #[0, 2] ∧
      m.console.streams.accepted = [2] := by
  obtain ⟨hsource, hparsed⟩ := Program.source_equivalent
  obtain ⟨hbalanced, heffective⟩ := hparsed .all ([.right, .increment, .increment, .loopStart,
    .decrement, .loopEnd, .increment, .increment, .output].map Symbol.byte)
    [.act (.set 2) 1, .act .output 1] _ rfl
  obtain ⟨plain, ws', code, code', hparse, hcode, hcode', hfollows⟩ :=
    hsource _ hbalanced heffective
  obtain rfl := Except.ok.inj hcode'
  obtain ⟨m, hm, hevents, htape⟩ := (hfollows { tapeSize := 2 } {} rfl).2.ends none _
    ⟨none, _, ⟨3, rfl⟩, rfl⟩
  refine ⟨_, _, code, m, rfl, rfl, ⟨plain, ws', hparse, hcode⟩, hm, htape rfl, ?_⟩
  rw [Streams.accepted, hevents]
  decide

end Tapecode
