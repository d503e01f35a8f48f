import Tapecode.Proofs.Optimization
import Tapecode.Proofs.Parsing

/-!
# Soundness of the passes

Whatever the passes, an execution that does not run into a bound of the machine, neither the ends of
the tape nor the step limit, is one of the optimised code as well: it ends in the same way, after
the same calls on the streams, with the same tape and in no more steps (`Bytecode.RefinedBy`). This
holds of every balanced program that is optimised afterwards (`Program.optimize_sound`), and of
every source text that is optimised while it is parsed (`parse_sound`).
-/

namespace Tapecode

/-- The bytecode of a balanced program is refined by that of its optimisation. -/
theorem Program.Balanced.optimize_refines {p : Program} (hp : p.Balanced) (passes : Passes) :
    ∃ q code code', p.optimize passes = .ok q ∧ q.Balanced ∧ p.compile = .ok code ∧
      q.compile = .ok code' ∧ code.RefinedBy code' := by
  obtain ⟨n, rfl⟩ := hp
  obtain ⟨n', base, hoptimize, hrefines⟩ := n.optimize_program passes
  exact ⟨n'.program, n.encode, n'.encode, hoptimize, ⟨n', rfl⟩, n.compile_program,
    n'.compile_program, Nest.encode_refinedBy hrefines⟩

/-- **Optimising a program is sound**, whatever instructions it is made of: it works for every
balanced program, and the bytecode of the program is refined by that of the optimised one. -/
theorem Program.optimize_sound (passes : Passes) {p : Program} (hp : p.Balanced) :
    ∃ q code code', p.optimize passes = .ok q ∧ p.compile = .ok code ∧ q.compile = .ok code' ∧
      code.RefinedBy code' := by
  obtain ⟨q, code, code', hoptimize, -, hcode, hcode', hrefines⟩ := hp.optimize_refines passes
  exact ⟨q, code, code', hoptimize, hcode, hcode', hrefines⟩

/-- A set, a change by nothing and a loop that counts down to zero become a single set. -/
theorem Program.optimize_sound_of_set :
    ∃ q m, Program.optimize .all [.act (.set 2) 1, .act (.change 0) 1, .enter 1,
        .act (.change (-1)) 0, .leave 0, .act .output 0] = .ok q ∧
      q.compile = .ok [4, 1, 0, 2, 1] ∧
      Executes [4, 1, 0, 2, 1] { tapeSize := 2 } {} none m ∧
      m.tape = #[0, 0] ∧ m.steps ≤ 8 ∧ m.console.streams.accepted = [0] := by
  obtain ⟨q, code, code', hoptimize, hcode, hcode', hrefines⟩ :=
    Program.optimize_sound .all ⟨.act (.set 2) 1 (.act (.change 0) 1
      (.loop 1 (.act (.change (-1)) 0 .done) 0 (.act .output 0 .done))), rfl⟩
  obtain rfl := Except.ok.inj hcode
  obtain rfl := Except.ok.inj hoptimize
  obtain rfl := Except.ok.inj hcode'
  obtain ⟨m, hm, hevents, hdone⟩ := hrefines { tapeSize := 2 } {} none _
    ⟨none, _, ⟨9, rfl⟩, rfl⟩ nofun nofun
  refine ⟨_, m, hoptimize, rfl, hm, (hdone rfl).1, (hdone rfl).2, ?_⟩
  rw [Streams.accepted, hevents]
  decide

/-- **Parsing with passes is sound**: a source text that parses without passes parses with any, and
the bytecode that it has without is refined by the one that it has with them. -/
theorem parse_sound (passes : Passes) {source : List UInt8} {plain : Program} {ws : List Warning}
    (hparse : parse .off source = .ok (plain, ws)) :
    ∃ program ws' code code', parse passes source = .ok (program, ws') ∧
      plain.compile = .ok code ∧ program.compile = .ok code' ∧ code.RefinedBy code' := by
  obtain ⟨program, ws', hlive, hbalanced, hprogram⟩ := parse_of_parse_off passes hparse
  obtain ⟨q, code, code', hoptimize, -, hcode, hcode', hrefines⟩ :=
    hbalanced.optimize_refines passes
  rw [hprogram] at hoptimize
  obtain rfl := Except.ok.inj hoptimize
  exact ⟨program, ws', code, code', hlive, hcode, hcode', hrefines⟩

/-- The source text `,[-]+.` becomes an input, a set and an output. -/
theorem parse_sound_of_clearing_loop :
    ∃ program ws m, parse .all ([.input, .loopStart, .decrement, .loopEnd, .increment,
        .output].map Symbol.byte) = .ok (program, ws) ∧
      program.compile = .ok [1, 0, 4, 0, 1, 2, 0] ∧
      Executes [1, 0, 4, 0, 1, 2, 0] { tapeSize := 1 } { reads := [.byte 2] } none m ∧
      m.tape = #[1] ∧ m.steps ≤ 8 ∧ m.console.streams.accepted = [1] := by
  obtain ⟨program, ws, code, code', hlive, hcode, hcode', hrefines⟩ :=
    @parse_sound .all ([.input, .loopStart, .decrement, .loopEnd, .increment,
      .output].map Symbol.byte) _ _ rfl
  obtain rfl := Except.ok.inj hcode
  obtain ⟨rfl, rfl⟩ := Prod.mk.inj (Except.ok.inj hlive)
  obtain rfl := Except.ok.inj hcode'
  obtain ⟨m, hm, hevents, hdone⟩ := hrefines { tapeSize := 1 } { reads := [.byte 2] } none _
    ⟨none, _, ⟨9, rfl⟩, rfl⟩ nofun nofun
  refine ⟨_, _, m, hlive, rfl, hm, (hdone rfl).1, (hdone rfl).2, ?_⟩
  rw [Streams.accepted, hevents]
  decide

end Tapecode
