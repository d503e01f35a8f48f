import Mathlib.Tactic.Common
import Tapecode.Proofs.Structured

/-!
# Refinement

A piece of program is replaced by a shorter one that need not be started with the pointer on the
same cell. `Related shift s t` compares the state `s` of the longer program with the state `t` of
the shorter: they have the same tape and the same console, `t` has counted no more steps, and the
pointer of `s` is `shift` cells to the right of the pointer of `t`.

`Refines` says that the shorter piece ends as the longer one does, unless the longer one runs into a
bound: it leaves the tape or exceeds its step limit. Nothing is said of such runs. Sequences and
loops of refined pieces are refined (`Refines.seq`, `Refines.iterates`, `Refines.loop`).
-/

namespace Tapecode

open Machine Behaviour

/-- Faults of a run that leaves its bounds. -/
def Fault.isBound : Fault → Bool
  | .tapeOutOfBounds _ | .stepLimitExceeded _ => true
  | .inputExhausted | .invalidOpcode _ _ | .invalidJump _ | .io _ => false

/-- The run has not left its bounds. -/
def Outcome.Within : Outcome → Prop
  | .done _ => True
  | .fault cause _ => cause.isBound = false

/-- How a state `t` of the shorter program stands for a state `s` of the longer one. -/
structure Related (shift : Int) (s t : State) : Prop where
  tape : t.tape = s.tape
  console : t.console = s.console
  steps : t.steps ≤ s.steps
  pointer : (s.pointer : Int) = t.pointer + shift

/-- How an outcome of the shorter program stands for one of the longer. Of a fault, only the cause
and the console count. -/
def Matches (shift : Int) : Outcome → Outcome → Prop
  | .done s, .done t => Related shift s t
  | .fault cause s, .fault cause' t => cause = cause' ∧ t.console = s.console
  | .done _, .fault _ _ | .fault _ _, .done _ => False

theorem Related.refl (s : State) : Related 0 s s :=
  ⟨rfl, rfl, Nat.le_refl _, by omega⟩

theorem Related.trans {k l : Int} {s t u : State} (h : Related k s t) (h' : Related l t u) :
    Related (l + k) s u where
  tape := h'.tape.trans h.tape
  console := h'.console.trans h.console
  steps := Nat.le_trans h'.steps h.steps
  pointer := by rw [h.pointer, h'.pointer]; omega

theorem Matches.trans {k l : Int} {r r' r'' : Outcome} (h : Matches k r r')
    (h' : Matches l r' r'') : Matches (l + k) r r'' := by
  cases r <;> cases r' <;> cases r'' <;> try exact h.elim
  case done.done.done => exact Related.trans h h'
  case fault.fault.fault => exact ⟨h.1.trans h'.1, h'.2.trans h.2⟩
  all_goals exact h'.elim

theorem Matches.within {shift : Int} {r r' : Outcome} (h : Matches shift r r') (hr : r.Within) :
    r'.Within := by
  cases r <;> cases r' <;> try exact h.elim
  case done.done => trivial
  case fault.fault => exact h.1 ▸ hr

theorem Matches.exists_done {shift : Int} {s : State} {r : Outcome}
    (h : Matches shift (.done s) r) :
    ∃ t, r = .done t ∧ Related shift s t := by
  cases r with
  | done t => exact ⟨t, rfl, h⟩
  | fault cause t => exact h.elim

theorem Matches.exists_fault {shift : Int} {cause : Fault} {s : State} {r : Outcome}
    (h : Matches shift (.fault cause s) r) : ∃ t, r = .fault cause t ∧ t.console = s.console := by
  cases r with
  | done t => exact h.elim
  | fault cause' t =>
    obtain ⟨rfl, hconsole⟩ := h
    exact ⟨t, rfl, hconsole⟩

theorem Matches.exists_done_left {shift : Int} {t : State} {r : Outcome}
    (h : Matches shift r (.done t)) : ∃ s, r = .done s ∧ Related shift s t := by
  cases r with
  | done s => exact ⟨s, rfl, h⟩
  | fault cause s => exact h.elim

theorem Matches.exists_fault_left {shift : Int} {cause : Fault} {t : State} {r : Outcome}
    (h : Matches shift r (.fault cause t)) : ∃ s, r = .fault cause s ∧ t.console = s.console := by
  cases r with
  | done s => exact h.elim
  | fault cause' s =>
    obtain ⟨rfl, hconsole⟩ := h
    exact ⟨s, rfl, hconsole⟩

/-! ## Beginning an instruction -/

/-- An instruction at `offset` can begin, and its cell is `i`. -/
def State.Finds (settings : Settings) (s : State) (offset : Int) (i : Nat) : Prop :=
  settings.cutOff? s.steps = none ∧ locate s.tape.size (s.pointer + offset) = .ok i

theorem isBound_of_cutOff? {settings : Settings} {steps : Nat} {cause : Fault}
    (h : settings.cutOff? steps = some cause) : cause.isBound = true := by
  unfold Settings.cutOff? at h
  split at h
  · cases h
  · split at h
    · obtain rfl := Option.some.inj h
      rfl
    · cases h

/-- A run that is not cut off is not cut off at fewer steps. -/
theorem cutOff?_of_le {settings : Settings} {j k : Nat} (hle : j ≤ k)
    (h : settings.cutOff? k = none) : settings.cutOff? j = none := by
  unfold Settings.cutOff? at h ⊢
  split at h
  · rfl
  · rename_i limit _
    by_cases hk : limit ≤ k
    · rw [if_pos hk] at h
      cases h
    · exact if_neg (by omega)

theorem isBound_of_locate {size : Nat} {target : Int} {cause : Fault}
    (h : locate size target = .error cause) : cause.isBound = true := by
  unfold locate at h
  split at h
  · obtain rfl := Except.error.inj h
    rfl
  · split at h
    · cases h
    · obtain rfl := Except.error.inj h
      rfl

/-- A cell that is found is on the tape, at the address asked for. -/
theorem locate_eq_ok {size : Nat} {target : Int} {i : Nat} (h : locate size target = .ok i) :
    i < size ∧ (i : Int) = target := by
  unfold locate at h
  split at h
  · cases h
  · rename_i target' heq
    obtain ⟨rfl, -⟩ := Word.checked_eq_some_iff.mp heq
    by_cases hin : (0 : Int) ≤ target ∧ target < (size : Int)
    · obtain rfl := Except.ok.inj ((if_pos hin).symm.trans h)
      omega
    · cases (if_neg hin).symm.trans h

namespace State

variable {settings : Settings} {s t : State} {offset : Int} {i : Nat}

theorem Finds.lt_size (h : s.Finds settings offset i) : i < s.tape.size :=
  (locate_eq_ok h.2).1

theorem Finds.eq_add (h : s.Finds settings offset i) : (i : Int) = s.pointer + offset :=
  (locate_eq_ok h.2).2

theorem Finds.visit (h : s.Finds settings offset i) (use : State → Nat → Outcome) :
    s.visit settings offset use = use s.counted i := by
  rw [State.visit, h.1, h.2]

/-- An instruction that does not run into a bound has begun. -/
theorem exists_finds {use : State → Nat → Outcome} (h : (s.visit settings offset use).Within) :
    ∃ i, s.Finds settings offset i := by
  unfold State.visit at h
  cases hcut : settings.cutOff? s.steps with
  | some cause =>
    rw [hcut] at h
    exact absurd (isBound_of_cutOff? hcut) (by rw [show cause.isBound = false from h]; decide)
  | none =>
    rw [hcut] at h
    cases hcell : locate s.tape.size (s.pointer + offset) with
    | error cause =>
      rw [hcell] at h
      exact absurd (isBound_of_locate hcell) (by rw [show cause.isBound = false from h]; decide)
    | ok i => exact ⟨i, hcut, hcell⟩

/-- The shorter program finds the same cell. -/
theorem Finds.related {shift : Int} (h : s.Finds settings offset i) (hrel : Related shift s t) :
    t.Finds settings (shift + offset) i := by
  refine ⟨cutOff?_of_le hrel.steps h.1, ?_⟩
  rw [hrel.tape, ← Int.add_assoc, ← hrel.pointer]
  exact h.2

end State

theorem Related.counted {shift : Int} {s t : State} (h : Related shift s t) :
    Related shift s.counted t.counted where
  tape := h.tape
  console := h.console
  steps := Nat.succ_le_succ h.steps
  pointer := h.pointer

theorem Related.current_eq {s t : State} (h : Related 0 s t) : t.current = s.current := by
  have hpointer : t.pointer = s.pointer := by have := h.pointer; omega
  rw [State.current, State.current, State.value, State.value, h.tape, hpointer]

/-! ## Pieces that refine pieces -/

/-- Started in related states, `B` ends as `A` does, unless `A` runs into a bound. -/
def Refines (shift shift' : Int) (A B : Behaviour) : Prop :=
  ∀ s t r, Related shift s t → A s r → r.Within → ∃ r', B t r' ∧ Matches shift' r r'

/-- An effect does the same to related states. -/
theorem Matches.perform {shift : Int} {s t : State} (eof : EofPolicy) (e : Effect) (i : Nat)
    (h : Related shift s t) : Matches shift (e.perform eof s i) (e.perform eof t i) := by
  obtain ⟨tape, console, hsteps, hpointer⟩ := h
  have hvalue : t.value i = s.value i := by rw [State.value, State.value, tape]
  have hstore (c : Console) (v : UInt8) : Related shift (State.store { s with console := c } i v)
      (State.store { t with console := c } i v) :=
    ⟨by simp only [State.store, tape], rfl, hsteps, hpointer⟩
  cases e with
  | set v => exact ⟨by simp only [State.store, tape], console, hsteps, hpointer⟩
  | change d => exact ⟨by simp only [State.store, tape, hvalue], console, hsteps, hpointer⟩
  | input =>
    simp only [Effect.perform, console]
    rcases s.console.readByte with ⟨_ | _ | b, c⟩
    · exact ⟨rfl, rfl⟩
    · cases eof with
      | sentinel v => exact hstore c v
      | fail => exact ⟨rfl, rfl⟩
    · exact hstore c b
  | output =>
    simp only [Effect.perform, console, hvalue]
    rcases s.console.push (s.value i) with ⟨_ | _, c⟩
    · exact ⟨rfl, rfl⟩
    · exact ⟨tape, rfl, hsteps, hpointer⟩

namespace Refines

variable {settings : Settings} {shift : Int}

/-- An effect refines the same effect, at the offset that names the same cell. -/
theorem act (e : Effect) (offset : Int) :
    Refines shift shift (of (e.run settings offset)) (of (e.run settings (shift + offset))) := by
  rintro s t _ hrel rfl hwithin
  obtain ⟨i, hfinds⟩ := State.exists_finds hwithin
  refine ⟨_, rfl, ?_⟩
  rw [Effect.run, Effect.run, hfinds.visit, (hfinds.related hrel).visit]
  exact Matches.perform settings.eof e i hrel.counted

/-- After a move to the same cell the pointers agree. -/
theorem moveBy (offset : Int) :
    Refines shift 0 (of (State.moveBy settings offset))
      (of (State.moveBy settings (shift + offset))) := by
  rintro s t _ hrel rfl hwithin
  obtain ⟨i, hfinds⟩ := State.exists_finds hwithin
  refine ⟨_, rfl, ?_⟩
  rw [State.moveBy, State.moveBy, hfinds.visit, (hfinds.related hrel).visit]
  exact ⟨hrel.tape, hrel.console, hrel.counted.steps, (Int.add_zero _).symm⟩

theorem seq {k l m : Int} {A A' B B' : Behaviour} (hA : Refines k l A A') (hB : Refines l m B B') :
    Refines k m (A.seq B) (A'.seq B') := by
  intro s t r hrel hrun hwithin
  rcases seq_inv hrun with ⟨cause, u, hfault, rfl⟩ | ⟨u, hdone, hrest⟩
  · obtain ⟨r', hr', hmatch⟩ := hA s t _ hrel hfault hwithin
    obtain ⟨u', rfl, hconsole⟩ := hmatch.exists_fault
    exact ⟨_, seq_fault hr', rfl, hconsole⟩
  · obtain ⟨r', hr', hmatch⟩ := hA s t _ hrel hdone trivial
    obtain ⟨u', rfl, hrel'⟩ := hmatch.exists_done
    obtain ⟨r'', hr'', hmatch'⟩ := hB u u' r hrel' hrest hwithin
    exact ⟨r'', seq_done hr' hr'', hmatch'⟩

/-- Rounds that refine rounds are repeated equally often: related states test the same cell. -/
theorem iterates {A B : Behaviour} (h : Refines 0 0 A B) :
    Refines 0 0 (Iterates A) (Iterates B) := by
  intro s t r hrel hiter hwithin
  induction hiter generalizing t with
  | stop hzero => exact ⟨_, .stop (hrel.current_eq.trans hzero), hrel⟩
  | fail hcell hround =>
    obtain ⟨r', hr', hmatch⟩ := h _ t _ hrel hround hwithin
    obtain ⟨u', rfl, hconsole⟩ := hmatch.exists_fault
    exact ⟨_, .fail (hrel.current_eq ▸ hcell) hr', rfl, hconsole⟩
  | again hcell hround _ ih =>
    obtain ⟨r', hr', hmatch⟩ := h _ t _ hrel hround trivial
    obtain ⟨u', rfl, hrel'⟩ := hmatch.exists_done
    obtain ⟨r'', hr'', hmatch'⟩ := ih u' hrel' hwithin
    exact ⟨r'', .again (hrel.current_eq ▸ hcell) hr' hr'', hmatch'⟩

/-- **A loop is refined by a loop whose body refines its body**, with offsets that make up for where
the shorter program leaves the pointer. -/
theorem loop {k : Int} {A B : Behaviour} (entry exit : Int) (h : Refines 0 k A B) :
    Refines shift 0 (Behaviour.loop settings entry A exit)
      (Behaviour.loop settings (shift + entry) B (k + exit)) :=
  (moveBy entry).seq (iterates (h.seq (moveBy exit)))

end Refines

end Tapecode
