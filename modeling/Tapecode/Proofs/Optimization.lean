import Tapecode.Proofs.Compilation
import Tapecode.Proofs.Rewriting
import Tapecode.Proofs.Simplification

/-!
# Optimised programs do what the program does

What a builder makes of a nest absorbs the nest. The lemmas follow the rules of `Nest.Simplifies`:
an effect (`Nest.Takes.absorbs`), the end of a loop (`Nest.Closes.absorbs`), and by induction a
whole nest (`Nest.Simplifies.absorbs`).

`Nest.optimize_program` is the result for whole nests, and `Nest.encode_refinedBy` says what it
means for their encodings.
-/

namespace Tapecode

open Behaviour

/-- The cell of a loop that a builder finds dead is zero on entry. -/
theorem Builder.zeroAt_of_isDead {r : Nest} {entry : Int} {outer : List OpenLoop}
    (h : Builder.isDead ⟨r.backwards, entry⟩ outer = true) (settings : Settings) {Pre : State → Prop}
    (hpre : outer = [] → ∀ s, Pre s → s.Blank) : ZeroAt Pre (r.Runs settings) entry := by
  rcases hr : r.backwards with _ | ⟨last, older⟩
  · obtain rfl := Nest.eq_done_of_backwards hr
    have houter : outer = [] := by simpa [Builder.isDead, hr] using h
    exact .of_blank (hpre houter) entry
  · cases last with
    | enter o => exact (r.backwards_ne_enter o older hr).elim
    | leave o =>
      obtain rfl : entry = 0 := by simpa [Builder.isDead, hr] using h
      obtain ⟨q, a, body, rfl⟩ := Nest.exists_of_backwards_leave hr
      rw [Nest.runs_append_loop]
      exact .of_loop a o
    | act e o =>
      obtain ⟨q, rfl, -⟩ := Nest.exists_of_backwards_act hr
      cases e with
      | set v =>
        obtain ⟨rfl, rfl⟩ : v = 0 ∧ o = entry := by
          simpa [Builder.isDead, hr, Instruction.isClear, Instruction.offset] using h
        rw [Nest.runs_append_act]
        exact .of_set o
      | change d => simp [Builder.isDead, hr, Instruction.isClear] at h
      | input => simp [Builder.isDead, hr, Instruction.isClear] at h
      | output => simp [Builder.isDead, hr, Instruction.isClear] at h

/-! ## Rules -/

namespace Nest

/-- An effect at the end of a nest, or combined with it. -/
theorem Takes.absorbs {e : Effect} {r r' : Nest} {base x : Int} (h : r.Takes (base + x) e r')
    (settings : Settings) (Pre : State → Prop) :
    Absorbs Pre (r.Runs settings) base (of (e.run settings x)) (r'.Runs settings) base := by
  induction h with
  | append e r =>
    rw [runs_append_act]
    exact .append (.act e x)
  | overwrite he hw _ ih =>
    rw [runs_append_act]
    exact ih.overwrite hw he
  | merge hw hw' _ h =>
    rw [runs_append_act, runs_append_act]
    exact .merge hw hw' h
  | cancel hw h =>
    rw [runs_append_act]
    exact .cancel hw h

/-- **The end of a loop.** Its body `A` has been simplified to `body`. -/
theorem Closes.absorbs {clears : Int8 → Prop} {outer : List OpenLoop} {r r' body : Nest}
    {base base' a x k : Int} (h : Closes clears outer r (base + a) body (k + x) r' base')
    (settings : Settings) {Pre : State → Prop} {A : Behaviour}
    (hpre : outer = [] → ∀ s, Pre s → s.Blank) (hbody : Refines 0 k A (body.Runs settings)) :
    Absorbs Pre (r.Runs settings) base (Behaviour.loop settings a A x) (r'.Runs settings) base' := by
  generalize hexit : k + x = exit at h
  cases h with
  | removed hdead => exact .skip x (Builder.zeroAt_of_isDead hdead settings hpre)
  | cleared hd htakes =>
    rw [Runs, Runs, seq_of_done] at hbody
    exact .of_refines (.clear a hbody hexit) (htakes.absorbs settings Pre)
  | kept body exit =>
    rw [runs_append_loop, ← hexit]
    exact .append (.loop a x hbody)

/-- **A nest that is simplified is absorbed.** -/
theorem Simplifies.absorbs {clears : Int8 → Prop} {outer : List OpenLoop} {r n r' : Nest}
    {base base' : Int} (h : Simplifies clears outer r base n r' base') (settings : Settings)
    (Pre : State → Prop) (hpre : outer = [] → ∀ s, Pre s → s.Blank) :
    Absorbs Pre (r.Runs settings) base (n.Runs settings) (r'.Runs settings) base' := by
  induction h generalizing Pre with
  | done => exact .nil
  | act htakes _ ih => exact (htakes.absorbs settings Pre).trans (ih Pre hpre)
  | loop _ hclose _ ihBody ihRest =>
    have hbody := (ihBody (fun _ => True) (by simp)).refines fun _ => trivial
    exact (hclose.absorbs settings hpre hbody).trans (ihRest Pre hpre)

/-- At the start of a program every cell is zero, so what is simplified there is refined. -/
theorem Simplifies.refines_initial {clears : Int8 → Prop} {n n' : Nest} {base : Int}
    (h : Simplifies clears [] .done 0 n n' base) (settings : Settings) (streams : Streams)
    (r : Outcome) (hrun : n.Runs settings (.initial settings streams) r) (hwithin : r.Within) :
    ∃ r', n'.Runs settings (.initial settings streams) r' ∧ Matches base r r' := by
  have habsorbs := h.absorbs settings (· = .initial settings streams)
    fun _ s hs => hs ▸ State.blank_initial _ _
  exact habsorbs.done _ _ _ r rfl rfl (.refl _) hrun hwithin

end Nest

/-! ## Whole programs -/

/-- Optimising a nest gives a nest that refines it from the start of a program. -/
theorem Nest.optimize_program (passes : Passes) (n : Nest) :
    ∃ (n' : Nest) (base : Int), n.program.optimize passes = .ok n'.program ∧
      ∀ settings streams r, n.Runs settings (.initial settings streams) r → r.Within →
        ∃ r', n'.Runs settings (.initial settings streams) r' ∧ Matches base r r' := by
  obtain ⟨n', base, hoptimize, hsimplifies⟩ :=
    n.optimize_simplifies passes (fun _ => True) (by simp)
  exact ⟨n', base, hoptimize, hsimplifies.refines_initial⟩

/-- Wherever an execution of `code` ends without running into a bound, the execution of `code'` on
the same streams ends in the same way after the same calls on the streams; and if there is no fault,
the tapes are equal and `code'` has taken no more steps. -/
def Bytecode.RefinedBy (code code' : Bytecode) : Prop :=
  ∀ settings streams fault m, Executes code settings streams fault m →
    (∀ cell, fault ≠ some (.tapeOutOfBounds cell)) →
    (∀ limit, fault ≠ some (.stepLimitExceeded limit)) →
    ∃ m', Executes code' settings streams fault m' ∧
      m'.console.streams.events = m.console.streams.events ∧
      (fault = none → m'.tape = m.tape ∧ m'.steps ≤ m.steps)

theorem Matches.cause_eq {shift : Int} {r r' : Outcome} (h : Matches shift r r') :
    r'.cause = r.cause := by
  cases r <;> cases r' <;> try exact h.elim
  case done.done => rfl
  case fault.fault => exact congrArg some h.1.symm

theorem Matches.console_eq {shift : Int} {r r' : Outcome} (h : Matches shift r r') :
    r'.state.console = r.state.console := by
  cases r <;> cases r' <;> try exact h.elim
  case done.done => exact h.console
  case fault.fault => exact h.2

/-- The refinement of nests, seen from their encodings. -/
theorem Nest.encode_refinedBy {n n' : Nest} {base : Int}
    (h : ∀ settings streams r, n.Runs settings (.initial settings streams) r → r.Within →
      ∃ r', n'.Runs settings (.initial settings streams) r' ∧ Matches base r r') :
    Bytecode.RefinedBy n.encode n'.encode := by
  intro settings streams fault m hexec hcell hlimit
  obtain ⟨r, address, hrun, hfinish⟩ := Nest.runs_of_executes hexec
  have hfst := Machine.finish_fst (r.state.machine address) r.cause
  have hsnd := Machine.finish_snd (r.state.machine address) r.cause
  rw [hfinish] at hfst hsnd
  -- a fault of the run itself is the one that is reported
  have hwithin : r.Within := by
    cases r with
    | done s => trivial
    | fault cause s =>
      have hfault : fault = some cause := by
        rw [show fault = _ from hfst]
        split <;> rfl
      subst hfault
      cases cause with
      | tapeOutOfBounds cell => exact (hcell cell rfl).elim
      | stepLimitExceeded limit => exact (hlimit limit rfl).elim
      | inputExhausted => rfl
      | invalidOpcode address word => rfl
      | invalidJump address => rfl
      | io cause => rfl
  obtain ⟨r', hrun', hmatch⟩ := h settings streams r hrun hwithin
  obtain ⟨address', hexec'⟩ := Nest.executes_of_runs hrun'
  have hconsole : (r'.state.machine address').console = (r.state.machine address).console :=
    hmatch.console_eq
  have hfault : ((r'.state.machine address').finish r'.cause).1 = fault := by
    rw [Machine.finish_fst, hconsole, hmatch.cause_eq]
    exact hfst.symm
  rw [hfault, Machine.finish_snd] at hexec'
  refine ⟨_, hexec', ?_, ?_⟩
  · rw [show m = _ from hsnd, hconsole]
  · intro hnone
    subst hnone
    cases r with
    | fault cause s =>
      have hfst : none = _ := hfst
      split at hfst <;> cases hfst
    | done s =>
      obtain ⟨t, rfl, hrel⟩ := hmatch.exists_done
      rw [show m = _ from hsnd]
      exact ⟨hrel.tape, hrel.steps⟩

end Tapecode
