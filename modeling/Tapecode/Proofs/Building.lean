import Tapecode.Proofs.Parsing

/-!
# Optimising while building and afterwards

`Builder.build` gives a new builder some commands, one after the other, and asks it for the program.
Two builders that are given the same commands, one of them without passes, refuse the same command
or stay in step (`Builder.InStep.calls`), and then either both hand over a program or both refuse to
(`Builder.InStep.finalize`).

So it makes no difference whether a program is optimised while it is built or afterwards
(`optimize_after_building`).
-/

namespace Tapecode

namespace Builder

/-- Gives a builder some commands, up to the first that it refuses. -/
def calls (b : Builder) (commands : List Command) (arithmetic : Arithmetic := .exact) :
    Except BuildError Builder :=
  match commands with
  | [] => .ok b
  | c :: rest =>
    match b.call c arithmetic with
    | (.ok (), b) => b.calls rest arithmetic
    | (.error e, _) => .error e

/-- The program that a new builder with these passes makes of some commands. -/
def build (passes : Passes) (commands : List Command) (arithmetic : Arithmetic := .exact) :
    Except BuildError Program :=
  match ({ passes } : Builder).calls commands arithmetic with
  | .ok b => b.finalize.1
  | .error e => .error e

namespace InStep

variable {a : Arithmetic} {plain live : Builder}

/-- **Builders that are in step refuse the same commands.** -/
theorem call_cases (h : InStep a plain live) (c : Command) :
    (∃ e plain' live', plain.call c a = (.error e, plain') ∧ live.call c a = (.error e, live')) ∨
      ∃ plain' live', plain.call c a = (.ok (), plain') ∧ live.call c a = (.ok (), live') ∧
        live'.passes = live.passes ∧ InStep a plain' live' := by
  by_cases hopen : c = .endLoop → plain.loops ≠ []
  · obtain ⟨plain', hplain, -⟩ := exists_call h.plain_open hopen
    obtain ⟨live', hlive, hpasses, h'⟩ := h.call hplain
    exact .inr ⟨plain', live', hplain, hlive, hpasses, h'⟩
  · obtain ⟨rfl, hloops⟩ : c = .endLoop ∧ plain.loops = [] := by simpa using hopen
    have hlive : live.loops = [] := List.length_eq_zero_iff.mp (by simp [h.depth, hloops])
    exact .inl ⟨_, _, _, call_endLoop_of_loops_eq_nil h.plain_open hloops,
      call_endLoop_of_loops_eq_nil h.live_open hlive⟩

theorem calls (h : InStep a plain live) (commands : List Command) :
    (∃ e, plain.calls commands a = .error e ∧ live.calls commands a = .error e) ∨
      ∃ plain' live', plain.calls commands a = .ok plain' ∧ live.calls commands a = .ok live' ∧
        live'.passes = live.passes ∧ InStep a plain' live' := by
  induction commands generalizing plain live with
  | nil => exact .inr ⟨plain, live, rfl, rfl, rfl, h⟩
  | cons c rest ih =>
    rcases h.call_cases c with
      ⟨e, _, _, hplain, hlive⟩ | ⟨plain₁, live₁, hplain, hlive, hpasses, h₁⟩
    · exact .inl ⟨e, by simp only [Builder.calls, hplain], by simp only [Builder.calls, hlive]⟩
    · simp only [Builder.calls, hplain, hlive, ← hpasses]
      exact ih h₁

/-- Builders in step both hand over a program, of which the second is the optimisation of the first,
or both have open loops. -/
theorem finalize (h : InStep a plain live) :
    (∃ e, plain.finalize.1 = .error e ∧ live.finalize.1 = .error e) ∨
      ∃ p q, plain.finalize.1 = .ok p ∧ live.finalize.1 = .ok q ∧
        p.optimize live.passes a = .ok q := by
  by_cases hloops : plain.loops = []
  · have hlive : live.loops = [] := List.length_eq_zero_iff.mp (by simp [h.depth, hloops])
    exact .inr ⟨_, _, finalize_of_loops_eq_nil h.plain_open hloops,
      finalize_of_loops_eq_nil h.live_open hlive, h.optimize hloops⟩
  · have hlive : live.loops ≠ [] := by
      intro hnil
      exact hloops (List.length_eq_zero_iff.mp (by simp [← h.depth, hnil]))
    refine .inl ⟨.unclosedLoop, ?_, ?_⟩
    · simp [Builder.finalize, canFinalize, h.plain_open, hloops]
    · simp [Builder.finalize, canFinalize, h.live_open, hlive]

end InStep

/-- **Passes decide neither whether commands make a program nor why they do not**, and the program
that they make is the optimisation of the one that is made without. -/
theorem build_cases (a : Arithmetic) (passes : Passes) (commands : List Command) :
    (∃ e, build .off commands a = .error e ∧ build passes commands a = .error e) ∨
      ∃ p q, build .off commands a = .ok p ∧ build passes commands a = .ok q ∧
        p.optimize passes a = .ok q := by
  rcases (InStep.start a passes).calls commands with
    ⟨e, hplain, hlive⟩ | ⟨plain, live, hplain, hlive, hpasses, h⟩
  · exact .inl ⟨e, by simp only [build, hplain], by simp only [build, hlive]⟩
  · simp only [build, hplain, hlive]
    have hfinalize := h.finalize
    rwa [hpasses] at hfinalize

end Builder

/-- **Optimising a program afterwards is the same as optimising it while it is built**, in either
arithmetic of offsets. Any commands of which a builder without passes makes a program are turned into
the optimisation of this program by a builder with passes; in particular, a source text that parses
without passes parses with them to the optimisation of its plain program. And commands of which the
one builder makes no program are refused by the other for the same reason. -/
theorem optimize_after_building (arithmetic : Arithmetic) (passes : Passes) :
    (∀ commands p, Builder.build .off commands arithmetic = .ok p →
        ∃ q, p.optimize passes arithmetic = .ok q ∧
          Builder.build passes commands arithmetic = .ok q) ∧
      (∀ commands e, Builder.build .off commands arithmetic = .error e →
        Builder.build passes commands arithmetic = .error e) ∧
      ∀ source p ws, parse .off source arithmetic = .ok (p, ws) →
        ∃ q ws', p.optimize passes arithmetic = .ok q ∧
          parse passes source arithmetic = .ok (q, ws') := by
  refine ⟨?_, ?_, ?_⟩
  · intro commands p hbuild
    rcases Builder.build_cases arithmetic passes commands with
      ⟨e, herror, -⟩ | ⟨p', q, hp, hq, hoptimize⟩
    · rw [hbuild] at herror
      cases herror
    · rw [hbuild] at hp
      obtain rfl := Except.ok.inj hp
      exact ⟨q, hoptimize, hq⟩
  · intro commands e hbuild
    rcases Builder.build_cases arithmetic passes commands with ⟨e', herror, herror'⟩ | ⟨p, q, hp, -⟩
    · rw [hbuild] at herror
      obtain rfl := Except.error.inj herror
      exact herror'
    · rw [hbuild] at hp
      cases hp
  · intro source p ws hparse
    obtain ⟨q, ws', hq, -, hoptimize⟩ := parse_of_parse_off passes hparse
    exact ⟨q, ws', hoptimize, hq⟩

/-- A loop that is dropped and one that is cleared, with moves and a set around them; moves whose sum
leaves the 64-bit range and comes back to the cell of an input; a loop end without a start; and the
source text `>[.]<+`. -/
theorem optimize_after_building_of_dropped_loop :
    (∃ p q, Builder.build .off [.move 2, .startLoop, .act .output, .endLoop, .move (-1),
          .act (.change 1), .startLoop, .act (.change (-1)), .endLoop, .act (.set 3),
          .act .output] .wrapping = .ok p ∧ p.optimize .all .wrapping = .ok q ∧
        Builder.build .all [.move 2, .startLoop, .act .output, .endLoop, .move (-1),
          .act (.change 1), .startLoop, .act (.change (-1)), .endLoop, .act (.set 3),
          .act .output] .wrapping = .ok q ∧ q = [.act (.set 3) 1, .act .output 1]) ∧
      (∃ p q, Builder.build .off [.act .input, .act (.change 1), .move Word.greatest,
          .move Word.greatest, .move 2, .act (.change 1)] .wrapping = .ok p ∧
        p.optimize .all .wrapping = .ok q ∧
        Builder.build .all [.act .input, .act (.change 1), .move Word.greatest,
          .move Word.greatest, .move 2, .act (.change 1)] .wrapping = .ok q ∧
        q = [.act .input 0, .act (.change 2) 0]) ∧
      Builder.build .all [.endLoop, .startLoop] .wrapping = .error .unmatchedLoopEnd ∧
      ∃ p q ws, parse .off ([.right, .loopStart, .output, .loopEnd, .left,
          .increment].map Symbol.byte) .wrapping = .ok (p, []) ∧
        p.optimize .all .wrapping = .ok q ∧
        parse .all ([.right, .loopStart, .output, .loopEnd, .left,
          .increment].map Symbol.byte) .wrapping = .ok (q, ws) ∧ q = [.act (.change 1) 0] := by
  obtain ⟨hbuilt, hrefused, hparsed⟩ := optimize_after_building .wrapping .all
  refine ⟨?_, ?_, hrefused _ _ rfl, ?_⟩
  · obtain ⟨q, hoptimize, hq⟩ := hbuilt [.move 2, .startLoop, .act .output, .endLoop, .move (-1),
      .act (.change 1), .startLoop, .act (.change (-1)), .endLoop, .act (.set 3),
      .act .output] _ rfl
    exact ⟨_, q, rfl, hoptimize, hq, (Except.ok.inj hq).symm⟩
  · obtain ⟨q, hoptimize, hq⟩ := hbuilt [.act .input, .act (.change 1), .move Word.greatest,
      .move Word.greatest, .move 2, .act (.change 1)] _ rfl
    exact ⟨_, q, rfl, hoptimize, hq, (Except.ok.inj hq).symm⟩
  · obtain ⟨q, ws, hoptimize, hq⟩ := hparsed ([.right, .loopStart, .output, .loopEnd, .left,
      .increment].map Symbol.byte) _ _ rfl
    exact ⟨_, q, ws, rfl, hoptimize, hq, (Except.ok.inj hoptimize).symm⟩

end Tapecode
