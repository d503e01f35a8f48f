import Tapecode.Proofs.Output

/-!
# The step limit cuts a run off exactly

A run with a step limit goes like the run without one until as many instructions as the limit allows
have been carried out. If the run is over by then, the limit makes no difference; otherwise it is
cut off there, before another instruction is attempted.

What is limited is the number of attempts (`Machine.attempts`): a step at the end of the code is
none, and an attempt that fails is one, also if it fails before it is counted as a step.

* `Machine.advance_limited`: the first steps are the same with and without a limit;
* `Machine.halted_limited`: a run that needs no more attempts than allowed ends in the same way;
* `Machine.cutOff_limited`: a run that needs more is cut off after exactly as many steps.

`stepLimit_cuts_exactly` is the result for whole executions.
-/

namespace Tapecode

/-- The settings with another step limit. -/
def Settings.withStepLimit (settings : Settings) (limit : Option Nat) : Settings :=
  { settings with stepLimit := limit }

namespace Machine

@[simp] theorem load_withStepLimit (settings : Settings) (limit : Option Nat) (streams : Streams) :
    load (settings.withStepLimit limit) streams = load settings streams := rfl

/-- The number of instructions that the next `n` steps attempt, or fewer steps if the run is over
before. Nothing is attempted at the end of the code, nor where the run is cut off. -/
def attempts (code : Array Word) (settings : Settings) : Nat → Machine → Nat
  | 0, _ => 0
  | n + 1, m =>
    if m.counter < code.size ∧ settings.cutOff? m.steps = none then
      match m.step code settings with
      | .running m' => attempts code settings n m' + 1
      | .halted _ _ => 1
    else 0

variable {code : Array Word} {settings : Settings} {m : Machine}

/-! ## Counting -/

theorem step_of_end (h : code.size ≤ m.counter) : m.step code settings = .halted none m := by
  rw [step, Array.getElem?_eq_none h]

/-- An attempt is made by every step after which the run goes on. -/
theorem attempt_of_running {m' : Machine} (h : m.step code settings = .running m') :
    m.counter < code.size ∧ settings.cutOff? m.steps = none := by
  rw [step_eq_cutOff] at h
  split at h
  · cases h
  · cases h
  · rename_i word hword hcut
    exact ⟨(Array.getElem?_eq_some_iff.mp hword).1, hcut⟩

theorem attempts_le (n : Nat) (m : Machine) : attempts code settings n m ≤ n := by
  induction n generalizing m with
  | zero => simp [attempts]
  | succ n ih =>
    rw [attempts]
    split
    · cases m.step code settings with
      | running m' => exact Nat.succ_le_succ (ih m')
      | halted fault e => simp
    · simp

theorem attempts_add {j : Nat} (k : Nat) {m' : Machine}
    (h : advance code settings j m = .running m') :
    attempts code settings (j + k) m = j + attempts code settings k m' := by
  induction j generalizing m with
  | zero =>
    obtain rfl := Progress.running.inj h
    simp
  | succ j ih =>
    rw [advance] at h
    cases hstep : m.step code settings with
    | running m₁ =>
      rw [hstep] at h
      rw [Nat.succ_add, attempts, if_pos (attempt_of_running hstep), hstep]
      simp only [ih h]
      omega
    | halted fault e => simp [hstep] at h

theorem output_add {j : Nat} (k : Nat) {m' : Machine}
    (h : advance code settings j m = .running m') :
    output code settings (j + k) m = output code settings j m ++ output code settings k m' := by
  induction j generalizing m with
  | zero =>
    obtain rfl := Progress.running.inj h
    simp [output]
  | succ j ih =>
    rw [advance] at h
    cases hstep : m.step code settings with
    | running m₁ =>
      rw [hstep] at h
      simp [Nat.succ_add, output, hstep, ih h]
    | halted fault e => simp [hstep] at h

theorem steps_jump (m : Machine) (size : Nat) (target : Int) :
    (m.jump size target).machine.steps = m.steps := by
  unfold jump
  split <;> rfl

theorem steps_perform (m : Machine) (size : Nat) (eof : EofPolicy) (i : Nat) (op : Op) :
    (m.perform size eof i op).machine.steps = m.steps := by
  cases op with
  | change o x => rfl
  | set o x => rfl
  | input o =>
    simp only [perform, readInto]
    split <;> rfl
  | output o =>
    simp only [perform, writeFrom]
    split <;> rfl
  | jumpIfZero o x =>
    simp only [perform]
    split
    · exact steps_jump _ _ _
    · rfl
  | jumpIfNotZero o x =>
    simp only [perform]
    split
    · rfl
    · exact steps_jump _ _ _

theorem steps_step (code : Array Word) (settings : Settings) (m : Machine) :
    (m.step code settings).machine.steps ≤ m.steps + 1 := by
  rw [step_eq_plan]
  cases m.plan code settings with
  | stop fault => simp
  | miss fault => simp [counted]
  | carryOut i op => simp [steps_perform, counted]

theorem step_of_not_attempt (h : ¬(m.counter < code.size ∧ settings.cutOff? m.steps = none)) :
    ∃ fault, m.step code settings = .halted fault m := by
  by_cases hend : m.counter < code.size
  · cases hcut : settings.cutOff? m.steps with
    | none => exact absurd ⟨hend, hcut⟩ h
    | some fault => exact ⟨some fault, by rw [step_eq_cutOff, Array.getElem?_eq_getElem hend, hcut]⟩
  · exact ⟨none, step_of_end (Nat.le_of_not_lt hend)⟩

/-- Only attempts are counted as steps. -/
theorem steps_of_halted {n : Nat} {fault : Option Fault} {e : Machine}
    (h : advance code settings n m = .halted fault e) :
    e.steps ≤ m.steps + attempts code settings n m := by
  induction n generalizing m with
  | zero => cases h
  | succ n ih =>
    rw [advance] at h
    rw [attempts]
    split
    · cases hstep : m.step code settings with
      | running m' =>
        rw [hstep] at h
        have hsteps := (step_running hstep).1
        have hrest := ih h
        simp only
        omega
      | halted fault' e' =>
        have hsteps := steps_step code settings m
        rw [hstep] at h hsteps
        obtain ⟨-, rfl⟩ := Progress.halted.inj h
        exact hsteps
    · rename_i hnone
      obtain ⟨fault', hstep⟩ := step_of_not_attempt hnone
      rw [hstep] at h
      obtain ⟨-, rfl⟩ := Progress.halted.inj h
      simp

/-! ## Runs with and without a limit -/

variable {limit : Nat}

theorem step_limited (h : m.steps < limit) :
    m.step code (settings.withStepLimit (some limit)) =
      m.step code (settings.withStepLimit none) := by
  have hcut : (settings.withStepLimit (some limit)).cutOff? m.steps = none := by
    simp [Settings.cutOff?, Settings.withStepLimit, h]
  rw [step_eq_cutOff, step_eq_cutOff, hcut]
  rfl

/-- **The first steps are the same with and without a limit.** -/
theorem advance_limited {n : Nat} (h : m.steps + n ≤ limit) :
    advance code (settings.withStepLimit (some limit)) n m =
      advance code (settings.withStepLimit none) n m := by
  induction n generalizing m with
  | zero => rfl
  | succ n ih =>
    rw [advance, advance, step_limited (by omega)]
    cases hstep : m.step code (settings.withStepLimit none) with
    | running m' =>
      apply ih
      have hsteps := (step_running hstep).1
      omega
    | halted fault e => rfl

/-- **A run that needs no more attempts than allowed ends in the same way.** -/
theorem halted_limited {n : Nat} {fault : Option Fault} {e : Machine}
    (h : advance code (settings.withStepLimit none) n m = .halted fault e)
    (hle : m.steps + attempts code (settings.withStepLimit none) n m ≤ limit) :
    advance code (settings.withStepLimit (some limit)) n m = .halted fault e := by
  induction n generalizing m with
  | zero => cases h
  | succ n ih =>
    rw [advance] at h ⊢
    by_cases hend : m.counter < code.size
    · rw [attempts, if_pos ⟨hend, rfl⟩] at hle
      cases hstep : m.step code (settings.withStepLimit none) with
      | running m' =>
        have hsteps := (step_running hstep).1
        rw [hstep] at h
        simp only [hstep] at hle
        rw [step_limited (by omega), hstep]
        exact ih h (by omega)
      | halted fault' e' =>
        rw [hstep] at h
        simp only [hstep] at hle
        rw [step_limited (by omega), hstep]
        exact h
    · rw [step_of_end (Nat.le_of_not_lt hend)] at h ⊢
      exact h

/-- **A run that needs more is cut off** before it attempts another instruction. -/
theorem cutOff_limited {n : Nat} {mid : Machine}
    (h : advance code (settings.withStepLimit none) n m = .running mid)
    (hend : mid.counter < code.size) (hn : m.steps + n = limit) :
    advance code (settings.withStepLimit (some limit)) (n + 1) m =
      .halted (some (.stepLimitExceeded limit)) mid := by
  have hsteps := (advance_running h).1
  have hcut : (settings.withStepLimit (some limit)).cutOff? mid.steps =
      some (.stepLimitExceeded limit) := by
    have hreached : ¬mid.steps < limit := by omega
    simp [Settings.cutOff?, Settings.withStepLimit, hreached]
  rw [← advance_limited (Nat.le_of_eq hn)] at h
  rw [advance_add_of_running 1 h, advance_one, step_eq_cutOff, Array.getElem?_eq_getElem hend, hcut]

/-- Without a limit, a run is over within some number of attempts or has instructions left after
them. -/
theorem exists_halted_or_running (limit : Nat) (m : Machine) :
    (∃ n fault e, advance code settings n m = .halted fault e ∧
      attempts code settings n m ≤ limit) ∨
    ∃ mid, advance code settings limit m = .running mid ∧ mid.counter < code.size := by
  cases hrun : advance code settings limit m with
  | halted fault e => exact .inl ⟨limit, fault, e, hrun, attempts_le limit m⟩
  | running mid =>
    by_cases hend : mid.counter < code.size
    · exact .inr ⟨mid, rfl, hend⟩
    · refine .inl ⟨limit + 1, none, mid, ?_, ?_⟩
      · rw [advance_add_of_running 1 hrun, advance_one, step_of_end (Nat.le_of_not_lt hend)]
      · rw [attempts_add 1 hrun]
        simp [attempts, hend]

end Machine

/-- Executing `code` comes to an end after at most `limit` attempts at an instruction, reports
`fault` and leaves the machine `m`. -/
def ExecutesWithin (limit : Nat) (code : Bytecode) (settings : Settings) (streams : Streams)
    (fault : Option Fault) (m : Machine) : Prop :=
  ∃ n cause last,
    Machine.advance code.toArray settings n (.load settings streams) = .halted cause last ∧
    Machine.attempts code.toArray settings n (.load settings streams) ≤ limit ∧
    last.finish cause = (fault, m)

section

variable {limit : Nat} {code : Bytecode} {settings : Settings} {streams : Streams}

/-- An execution that needs no more attempts than allowed is the same with the limit. -/
theorem ExecutesWithin.limited {fault : Option Fault} {m : Machine}
    (h : ExecutesWithin limit code (settings.withStepLimit none) streams fault m) :
    Executes code (settings.withStepLimit (some limit)) streams fault m ∧ m.steps ≤ limit := by
  obtain ⟨n, cause, last, hrun, hle, hfinish⟩ := h
  rw [Machine.load_withStepLimit] at hrun hle
  have hload : (Machine.load settings streams).steps = 0 := rfl
  have hlimited : Machine.advance code.toArray (settings.withStepLimit (some limit)) n
      (.load settings streams) = .halted cause last := Machine.halted_limited hrun (by omega)
  refine ⟨⟨cause, last, ⟨n, hlimited⟩, hfinish⟩, ?_⟩
  have hsteps := Machine.steps_of_halted hrun
  have hsnd : m = { last with console := last.console.flush.2 } := by
    rw [← Machine.finish_snd last cause, hfinish]
  simp only [hsnd]
  omega

/-- An execution that needs more attempts than allowed has instructions left when it is cut off. -/
theorem exists_running_of_not_within
    (h : ∀ fault m, ¬ExecutesWithin limit code (settings.withStepLimit none) streams fault m) :
    ∃ last, Machine.advance code.toArray (settings.withStepLimit none) limit
        (.load settings streams) = .running last ∧ last.counter < code.toArray.size := by
  rcases Machine.exists_halted_or_running limit (.load settings streams) with
    ⟨n, cause, last, hrun, hle⟩ | hmore
  · exact absurd ⟨n, cause, last, hrun, hle, rfl⟩ (h _ _)
  · exact hmore

/-- A run that goes on after more steps than allowed needs more attempts. -/
theorem not_within_of_running {mid : Machine}
    (hrun : Machine.advance code.toArray settings (limit + 1) (.load settings streams) =
      .running mid) (fault : Option Fault) (m : Machine) :
    ¬ExecutesWithin limit code settings streams fault m := by
  rintro ⟨n, cause, last, hhalted, hle, -⟩
  have hlt := (Machine.lt_and_advance_sub hrun hhalted).1
  obtain ⟨k, rfl⟩ := Nat.exists_eq_add_of_le (Nat.le_of_lt hlt)
  rw [Machine.attempts_add k hrun] at hle
  omega

theorem executes_of_cutOff {last : Machine}
    (hrun : Machine.advance code.toArray (settings.withStepLimit none) limit
      (.load settings streams) = .running last) (hend : last.counter < code.toArray.size) :
    Executes code (settings.withStepLimit (some limit)) streams (some (.stepLimitExceeded limit))
      (last.finish (some (.stepLimitExceeded limit))).2 :=
  ⟨_, last, ⟨limit + 1, Machine.cutOff_limited hrun hend (Nat.zero_add limit)⟩, last.finish_some _⟩

/-- What is delivered when a run that goes on is ended. -/
theorem accepted_of_running {n : Nat} {last : Machine} (hsink : streams.Reliable)
    (hrun : Machine.advance code.toArray settings n (.load settings streams) = .running last)
    (fault : Option Fault) :
    (last.finish fault).2.console.streams.accepted =
      streams.accepted ++ Machine.output code.toArray settings n (.load settings streams) := by
  obtain ⟨hreliable, hsent⟩ :=
    Machine.sent_advance code.toArray settings n (m := .load settings streams) hsink
  rw [hrun, Progress.machine_running] at hreliable hsent
  obtain ⟨c, quiet, hfinish, haccepted, -⟩ := Machine.finish_of_reliable hreliable fault
  rw [hfinish, haccepted, hsent, Machine.sent_load]

end

/-- **The step limit cuts an execution off exactly, and changes nothing else.** With a limit, every
execution comes to an end. If the execution without a limit needs at most `limit` attempts, then it
is also the execution with the limit, and has at most `limit` steps. Otherwise the execution with the
limit makes the first `limit` steps of the one without, all of which succeed, is cut off there, and
delivers on a sink that does not fail what these steps have printed, with which everything begins
that the execution without a limit will have printed at any later time. -/
theorem stepLimit_cuts_exactly (code : Bytecode) (settings : Settings) (streams : Streams)
    (limit : Nat) :
    (∃ fault m, Executes code (settings.withStepLimit (some limit)) streams fault m) ∧
    (∀ fault m, ExecutesWithin limit code (settings.withStepLimit none) streams fault m →
      Executes code (settings.withStepLimit (some limit)) streams fault m ∧ m.steps ≤ limit) ∧
    ((∀ fault m, ¬ExecutesWithin limit code (settings.withStepLimit none) streams fault m) →
      ∃ last m,
        (∀ n ≤ limit,
          Machine.advance code.toArray (settings.withStepLimit (some limit)) n
              (.load settings streams) =
            Machine.advance code.toArray (settings.withStepLimit none) n (.load settings streams)) ∧
        Machine.advance code.toArray (settings.withStepLimit none) limit (.load settings streams) =
          .running last ∧
        last.steps = limit ∧
        last.finish (some (.stepLimitExceeded limit)) = (some (.stepLimitExceeded limit), m) ∧
        Executes code (settings.withStepLimit (some limit)) streams
          (some (.stepLimitExceeded limit)) m ∧
        (streams.Reliable →
          m.console.streams.accepted = streams.accepted ++
            Machine.output code.toArray (settings.withStepLimit none) limit
              (.load settings streams) ∧
          ∀ n, limit ≤ n →
            Machine.output code.toArray (settings.withStepLimit none) limit
                (.load settings streams) <+:
              Machine.output code.toArray (settings.withStepLimit none) n
                (.load settings streams))) := by
  have hload : (Machine.load settings streams).steps = 0 := rfl
  refine ⟨?_, fun fault m h => h.limited, fun h => ?_⟩
  · by_cases h : ∃ fault m, ExecutesWithin limit code (settings.withStepLimit none) streams fault m
    · obtain ⟨fault, m, hwithin⟩ := h
      exact ⟨fault, m, hwithin.limited.1⟩
    · obtain ⟨last, hrun, hend⟩ := exists_running_of_not_within (by simpa using h)
      exact ⟨_, _, executes_of_cutOff hrun hend⟩
  · obtain ⟨last, hrun, hend⟩ := exists_running_of_not_within h
    refine ⟨last, _, ?_, hrun, ?_, last.finish_some _, executes_of_cutOff hrun hend, ?_⟩
    · intro n hn
      exact Machine.advance_limited (by omega)
    · have hsteps := (Machine.advance_running hrun).1
      omega
    · intro hsink
      refine ⟨accepted_of_running hsink hrun _, ?_⟩
      intro n hn
      obtain ⟨k, rfl⟩ := Nat.exists_eq_add_of_le hn
      rw [Machine.output_add k hrun]
      exact List.prefix_append _ _

/-- Two instructions are executed with a limit of two. A loop without end is cut off after four
instructions, of which the first prints a zero. -/
theorem stepLimit_cuts_exactly_of_endless_loop :
    (∃ m, Executes ([Op.change 0 1, .output 0].flatMap Op.words)
      { tapeSize := 1, stepLimit := some 2 } {} none m ∧ m.steps ≤ 2) ∧
    ∃ m, Executes ([Op.output 0, .change 0 1, .jumpIfZero 0 3, .jumpIfNotZero 0 3].flatMap Op.words)
        { tapeSize := 1, stepLimit := some 4 } {} (some (.stepLimitExceeded 4)) m ∧
      m.console.streams.accepted = [0] := by
  constructor
  · have hwithin := (stepLimit_cuts_exactly ([Op.change 0 1, .output 0].flatMap Op.words)
      { tapeSize := 1 } {} 2).2.1
    exact ⟨_, hwithin none _ ⟨3, none, _, rfl, by decide, rfl⟩⟩
  · have hmore := (stepLimit_cuts_exactly
      ([Op.output 0, .change 0 1, .jumpIfZero 0 3, .jumpIfNotZero 0 3].flatMap Op.words)
      { tapeSize := 1 } {} 4).2.2
    obtain ⟨last, m, -, -, -, -, hexec, hdelivered⟩ := hmore (not_within_of_running rfl)
    exact ⟨m, hexec, (hdelivered ⟨nofun, nofun⟩).1⟩

end Tapecode
