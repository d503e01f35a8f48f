import Mathlib.Tactic.Common
import Tapecode.Machine

/-!
# Executions

A run of the machine is a number of steps, and `advance` makes them. Here the number is forgotten:
`Reaches` says that a run comes from one machine to another, and `Halts` that it is over. Since the
machine is deterministic, a run that is over is over in one way only, wherever on its way it is
looked at (`Reaches.halts_iff`, `Halts.unique`).

`Executes` is a whole execution: from the loaded machine to the end of the run, and then the last
write. Code that runs for ever has no execution.
-/

namespace Tapecode

/-! ## Calls on the streams -/

namespace Streams

theorem readByte_calls (s : Streams) : s.events.toList <+: s.readByte.2.events.toList := by
  simp [readByte]

theorem writeAll_calls (s : Streams) (bytes : List UInt8) :
    s.events.toList <+: (s.writeAll bytes).2.events.toList := by
  simp [writeAll]

theorem flush_calls (s : Streams) : s.events.toList <+: s.flush.2.events.toList := by
  unfold flush
  split <;> simp

end Streams

namespace Console

theorem flush_calls (c : Console) :
    c.streams.events.toList <+: c.flush.2.streams.events.toList := by
  have hwrite := c.streams.writeAll_calls c.pending.toList
  unfold flush
  split
  · exact c.streams.flush_calls
  · split
    · rename_i streams heq
      rw [heq] at hwrite
      exact hwrite.trans streams.flush_calls
    · rename_i streams heq
      rw [heq] at hwrite
      exact hwrite

theorem push_calls (c : Console) (b : UInt8) :
    c.streams.events.toList <+: (c.push b).2.streams.events.toList := by
  simp only [push]
  split
  · exact flush_calls { c with pending := c.pending.push b }
  · exact List.prefix_rfl

theorem readByte_calls (c : Console) :
    c.streams.events.toList <+: c.readByte.2.streams.events.toList := by
  have hflush := c.flush_calls
  unfold readByte
  split
  · rename_i heq
    rw [heq] at hflush
    exact hflush
  · rename_i c' heq
    rw [heq] at hflush
    exact hflush.trans c'.streams.readByte_calls

end Console

namespace Machine

variable {code : Array Word} {settings : Settings}

/-- More steps go on from where fewer steps lead. -/
theorem advance_add (j k : Nat) (m : Machine) :
    advance code settings (j + k) m =
      match advance code settings j m with
      | .running m' => advance code settings k m'
      | .halted fault m' => .halted fault m' := by
  induction j generalizing m with
  | zero => rw [Nat.zero_add, advance]
  | succ j ih =>
    rw [Nat.succ_add, advance, advance]
    cases m.step code settings with
    | running m' => exact ih m'
    | halted fault m' => rfl

theorem advance_one (m : Machine) : advance code settings 1 m = m.step code settings := by
  rw [advance]
  cases m.step code settings <;> rfl

theorem advance_add_of_running {j : Nat} (k : Nat) {m m' : Machine}
    (h : advance code settings j m = .running m') :
    advance code settings (j + k) m = advance code settings k m' := by
  rw [advance_add, h]

theorem advance_of_le_of_halted {j k : Nat} (hle : j ≤ k) {m m' : Machine} {fault : Option Fault}
    (h : advance code settings j m = .halted fault m') :
    advance code settings k m = .halted fault m' := by
  obtain ⟨i, rfl⟩ := Nat.exists_eq_add_of_le hle
  rw [advance_add, h]

/-- A run that is over after `k` steps is not over after any number of steps that leave it running,
and needs only the rest of the `k` steps from there. -/
theorem lt_and_advance_sub {j k : Nat} {m m' e : Machine} {fault : Option Fault}
    (hj : advance code settings j m = .running m')
    (hk : advance code settings k m = .halted fault e) :
    j < k ∧ advance code settings (k - j) m' = .halted fault e := by
  have hlt : j < k := by
    by_contra hge
    rw [advance_of_le_of_halted (Nat.le_of_not_lt hge) hk] at hj
    cases hj
  refine ⟨hlt, ?_⟩
  rw [← advance_add_of_running (k - j) hj, Nat.add_sub_cancel' (Nat.le_of_lt hlt), hk]

/-! ## What every step adds -/

/-- The calls on the streams so far, first to last. -/
def calls (m : Machine) : List Event :=
  m.console.streams.events.toList

theorem jump_running (m : Machine) {m' : Machine} {size : Nat} {target : Int}
    (h : m.jump size target = .running m') : m'.steps = m.steps ∧ m.calls <+: m'.calls := by
  unfold jump at h
  split at h
  · obtain rfl := Progress.running.inj h
    exact ⟨rfl, List.prefix_rfl⟩
  · cases h

theorem skip_running (m : Machine) {m' : Machine} {n : Nat} (h : m.skip n = .running m') :
    m'.steps = m.steps ∧ m.calls <+: m'.calls := by
  obtain rfl := Progress.running.inj h
  exact ⟨rfl, List.prefix_rfl⟩

/-- An instruction that is carried out adds calls, if anything, and counts no step of its own. -/
theorem perform_running {m m' : Machine} {size : Nat} {eof : EofPolicy} {i : Nat} {op : Op}
    (h : m.perform size eof i op = .running m') : m'.steps = m.steps ∧ m.calls <+: m'.calls := by
  cases op with
  | change o amount => exact (m.store i _).skip_running h
  | set o v => exact (m.store i _).skip_running h
  | input o =>
    have hcalls := m.console.readByte_calls
    simp only [perform, readInto] at h
    split at h
    · obtain ⟨hsteps, hsame⟩ := skip_running _ h
      exact ⟨hsteps, hcalls.trans hsame⟩
    · obtain ⟨hsteps, hsame⟩ := skip_running _ h
      exact ⟨hsteps, hcalls.trans hsame⟩
    · cases h
    · cases h
  | output o =>
    have hcalls := m.console.push_calls (m.value i)
    simp only [perform, writeFrom] at h
    split at h
    · obtain ⟨hsteps, hsame⟩ := skip_running _ h
      exact ⟨hsteps, hcalls.trans hsame⟩
    · cases h
  | jumpIfZero o distance =>
    simp only [perform] at h
    split at h
    · exact (m.moveTo i).jump_running h
    · exact (m.moveTo i).skip_running h
  | jumpIfNotZero o distance =>
    simp only [perform] at h
    split at h
    · exact (m.moveTo i).skip_running h
    · exact (m.moveTo i).jump_running h

/-- **A step after which the run goes on is counted**, and no call that has been made is lost. -/
theorem step_running {m m' : Machine} (h : m.step code settings = .running m') :
    m'.steps = m.steps + 1 ∧ m.calls <+: m'.calls := by
  have hexecute (word : Word) (h : m.execute code settings.eof word = .running m') :
      m'.steps = m.steps + 1 ∧ m.calls <+: m'.calls := by
    simp only [execute] at h
    split at h
    · cases h
    · split at h
      · exact perform_running h
      · cases h
  unfold step at h
  split at h
  · cases h
  · split at h
    · exact hexecute _ h
    · split at h
      · cases h
      · exact hexecute _ h

theorem advance_running {k : Nat} {m m' : Machine} (h : advance code settings k m = .running m') :
    m'.steps = m.steps + k ∧ m.calls <+: m'.calls := by
  induction k generalizing m with
  | zero =>
    obtain rfl := Progress.running.inj h
    exact ⟨rfl, List.prefix_rfl⟩
  | succ k ih =>
    rw [advance] at h
    cases hstep : m.step code settings with
    | running m₁ =>
      rw [hstep] at h
      obtain ⟨hsteps, hcalls⟩ := ih h
      obtain ⟨hsteps', hcalls'⟩ := step_running hstep
      exact ⟨by omega, hcalls'.trans hcalls⟩
    | halted fault e =>
      rw [hstep] at h
      cases h

/-! ## Step limits -/

theorem ne_stepLimitExceeded_of_locate {size : Nat} {target : Int} {limit : Nat} :
    locate size target ≠ .error (.stepLimitExceeded limit) := by
  unfold locate
  split
  · exact nofun
  · split <;> exact nofun

theorem perform_ne_stepLimitExceeded (m e : Machine) (size : Nat) (eof : EofPolicy) (i : Nat)
    (op : Op) (limit : Nat) :
    m.perform size eof i op ≠ .halted (some (.stepLimitExceeded limit)) e := by
  have hjump (m : Machine) (target : Int) :
      m.jump size target ≠ .halted (some (.stepLimitExceeded limit)) e := by
    unfold jump
    split <;> exact nofun
  cases op with
  | change o amount => exact nofun
  | set o v => exact nofun
  | input o =>
    simp only [perform, readInto]
    split <;> exact nofun
  | output o =>
    simp only [perform, writeFrom]
    split <;> exact nofun
  | jumpIfZero o distance =>
    simp only [perform]
    split
    · exact hjump _ _
    · exact nofun
  | jumpIfNotZero o distance =>
    simp only [perform]
    split
    · exact nofun
    · exact hjump _ _

/-- A run is cut off only where there is a limit. -/
theorem stepLimit_of_step {m e : Machine} {limit : Nat}
    (h : m.step code settings = .halted (some (.stepLimitExceeded limit)) e) :
    settings.stepLimit = some limit := by
  have hexecute (word : Word) :
      m.execute code settings.eof word ≠ .halted (some (.stepLimitExceeded limit)) e := by
    simp only [execute]
    split
    · exact nofun
    · split
      · exact perform_ne_stepLimitExceeded _ _ _ _ _ _ _
      · rename_i hcell
        rintro ⟨⟩
        exact ne_stepLimitExceeded_of_locate hcell
  unfold step at h
  split at h
  · cases h
  · split at h
    · exact absurd h (hexecute _)
    · rename_i hlimit
      split at h
      · obtain ⟨rfl⟩ := Option.some.inj (Progress.halted.inj h).1
        exact hlimit
      · exact absurd h (hexecute _)

/-! ## Runs of any length -/

/-- A run leads from `m` to `m'`. -/
def Reaches (code : Array Word) (settings : Settings) (m m' : Machine) : Prop :=
  ∃ n, advance code settings n m = .running m'

/-- The run from `m` is over at some time, and leaves `m'`. -/
def Halts (code : Array Word) (settings : Settings) (m : Machine) (fault : Option Fault)
    (m' : Machine) : Prop :=
  ∃ n, advance code settings n m = .halted fault m'

theorem Reaches.refl (m : Machine) : Reaches code settings m m :=
  ⟨0, rfl⟩

theorem Reaches.of_step {m m' : Machine} (h : m.step code settings = .running m') :
    Reaches code settings m m' :=
  ⟨1, by rw [advance_one, h]⟩

theorem Halts.of_step {m m' : Machine} {fault : Option Fault}
    (h : m.step code settings = .halted fault m') : Halts code settings m fault m' :=
  ⟨1, by rw [advance_one, h]⟩

theorem Reaches.trans {m₁ m₂ m₃ : Machine} (h₁ : Reaches code settings m₁ m₂)
    (h₂ : Reaches code settings m₂ m₃) : Reaches code settings m₁ m₃ := by
  obtain ⟨j, hj⟩ := h₁
  obtain ⟨k, hk⟩ := h₂
  exact ⟨j + k, by rw [advance_add_of_running k hj, hk]⟩

/-- **Looking at a run on its way does not change how it ends.** -/
theorem Reaches.halts_iff {m m' e : Machine} {fault : Option Fault}
    (h : Reaches code settings m m') :
    Halts code settings m fault e ↔ Halts code settings m' fault e := by
  obtain ⟨j, hj⟩ := h
  constructor
  · rintro ⟨k, hk⟩
    exact ⟨k - j, (lt_and_advance_sub hj hk).2⟩
  · rintro ⟨k, hk⟩
    exact ⟨j + k, by rw [advance_add_of_running k hj, hk]⟩

/-- A run that is over has a last step. -/
theorem Halts.exists_last {m e : Machine} {fault : Option Fault}
    (h : Halts code settings m fault e) :
    ∃ m', Reaches code settings m m' ∧ m'.step code settings = .halted fault e := by
  obtain ⟨n, hn⟩ := h
  induction n generalizing m with
  | zero => cases hn
  | succ n ih =>
    rw [advance] at hn
    cases hstep : m.step code settings with
    | running m₁ =>
      rw [hstep] at hn
      obtain ⟨m', hreaches, hlast⟩ := ih hn
      exact ⟨m', (Reaches.of_step hstep).trans hreaches, hlast⟩
    | halted fault' e' =>
      rw [hstep] at hn
      obtain ⟨rfl, rfl⟩ := Progress.halted.inj hn
      exact ⟨m, .refl m, hstep⟩

/-- A run is over in one way only. -/
theorem Halts.unique {m e e' : Machine} {fault fault' : Option Fault}
    (h : Halts code settings m fault e) (h' : Halts code settings m fault' e') :
    fault = fault' ∧ e = e' := by
  obtain ⟨j, hj⟩ := h
  obtain ⟨k, hk⟩ := h'
  have hj' := advance_of_le_of_halted (Nat.le_add_right j k) hj
  have hk' := advance_of_le_of_halted (Nat.le_add_left k j) hk
  rw [hj'] at hk'
  exact Progress.halted.inj hk'

/-- The run from `m` is never over. -/
def RunsForever (code : Array Word) (settings : Settings) (m : Machine) : Prop :=
  ∀ n, ∃ m', advance code settings n m = .running m'

theorem runsForever_iff {m : Machine} :
    RunsForever code settings m ↔ ¬∃ fault e, Halts code settings m fault e := by
  constructor
  · rintro h ⟨fault, e, n, hn⟩
    obtain ⟨m', hm'⟩ := h n
    rw [hm'] at hn
    cases hn
  · intro h n
    cases hn : advance code settings n m with
    | running m' => exact ⟨m', rfl⟩
    | halted fault e => exact absurd ⟨fault, e, n, hn⟩ h

/-- The run is over at the end of the code. -/
theorem halts_at_end {m : Machine} (h : code.size ≤ m.counter) : Halts code settings m none m :=
  Halts.of_step (by rw [step, Array.getElem?_eq_none h])

/-! ## The last write -/

/-- The last write leaves everything but the console as it is. -/
theorem finish_snd (m : Machine) (fault : Option Fault) :
    (m.finish fault).2 = { m with console := m.console.flush.2 } := by
  rcases h : m.console.flush with ⟨_ | _, c⟩ <;> simp only [finish, h]

/-- What is reported after the last write depends on the run's own fault and the console only. -/
theorem finish_fst (m : Machine) (fault : Option Fault) :
    (m.finish fault).1 =
      match m.console.flush.1 with
      | .ok () => fault
      | .error e => fault.or (some (.io e)) := by
  rcases h : m.console.flush with ⟨_ | _, c⟩ <;> simp only [finish, h]

/-- A fault of the run is reported in any case. -/
theorem finish_some (m : Machine) (fault : Fault) :
    m.finish (some fault) = (some fault, (m.finish (some fault)).2) := by
  apply Prod.ext
  · rw [finish_fst]
    split <;> rfl
  · rfl

end Machine

/-! ## Whole executions -/

/-- Executing `code` comes to an end, reports `fault` and leaves the machine `m`. -/
def Executes (code : Bytecode) (settings : Settings) (streams : Streams) (fault : Option Fault)
    (m : Machine) : Prop :=
  ∃ cause last, Machine.Halts code.toArray settings (.load settings streams) cause last ∧
    last.finish cause = (fault, m)

/-- An execution has one result only. -/
theorem Executes.unique {code : Bytecode} {settings : Settings} {streams : Streams}
    {fault fault' : Option Fault} {m m' : Machine} (h : Executes code settings streams fault m)
    (h' : Executes code settings streams fault' m') : fault = fault' ∧ m = m' := by
  obtain ⟨cause, last, hrun, hfinish⟩ := h
  obtain ⟨cause', last', hrun', hfinish'⟩ := h'
  obtain ⟨rfl, rfl⟩ := hrun.unique hrun'
  rw [hfinish] at hfinish'
  exact Prod.mk.inj hfinish'

/-- Code is executed to an end, or runs for ever. -/
theorem executes_or_runsForever (code : Bytecode) (settings : Settings) (streams : Streams) :
    (∃ fault m, Executes code settings streams fault m) ∨
      Machine.RunsForever code.toArray settings (.load settings streams) := by
  by_cases h : ∃ fault e, Machine.Halts code.toArray settings (.load settings streams) fault e
  · obtain ⟨fault, e, hhalts⟩ := h
    exact .inl ⟨_, _, fault, e, hhalts, rfl⟩
  · exact .inr (Machine.runsForever_iff.mpr h)

theorem Executes.not_runsForever {code : Bytecode} {settings : Settings} {streams : Streams}
    {fault : Option Fault} {m : Machine} (h : Executes code settings streams fault m) :
    ¬Machine.RunsForever code.toArray settings (.load settings streams) := by
  obtain ⟨cause, last, hhalts, -⟩ := h
  exact fun hforever => Machine.runsForever_iff.mp hforever ⟨cause, last, hhalts⟩

theorem Executes.stepLimit_of_exceeded {code : Bytecode} {settings : Settings} {streams : Streams}
    {limit : Nat} {m : Machine}
    (h : Executes code settings streams (some (.stepLimitExceeded limit)) m) :
    settings.stepLimit = some limit := by
  obtain ⟨cause, last, hrun, hfinish⟩ := h
  obtain ⟨m', -, hlast⟩ := hrun.exists_last
  have hfst := Machine.finish_fst last cause
  rw [hfinish] at hfst
  -- the last write reports no such fault of its own
  have hcause : cause = some (.stepLimitExceeded limit) := by
    cases cause with
    | none => split at hfst <;> cases hfst
    | some cause => split at hfst <;> exact hfst.symm
  rw [hcause] at hlast
  exact Machine.stepLimit_of_step hlast

end Tapecode
