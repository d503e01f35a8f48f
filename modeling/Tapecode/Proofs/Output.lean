import Tapecode.Proofs.Delivery
import Tapecode.Proofs.Execution
import Tapecode.Proofs.Structured

/-!
# What a run prints

`Machine.plan` says what the next step of a machine will do: nothing, because the run is over, or
carry out an instruction on a cell. It does not look at the console, and `Machine.step_eq_plan` says
that the step follows it. The byte that a step prints is the value of the cell of an output
instruction (`Machine.printed?`), and `Machine.output` lists the bytes of a run, in order.

On a sink that does not fail, these bytes are what is delivered:

* `Machine.sent_advance`: what has been printed at any time is what the steps so far have printed;
* `Machine.accepted_of_read`: whenever a read is made, the sink has accepted all of that, whether or
  not the run is ever over;
* `Machine.mirrors_advance`: neither the size of the buffer, nor the sink, nor interruptions make
  any difference to the run.

`output_delivered` puts this together for runs and for whole executions.
-/

namespace Tapecode

/-- The machine of a run that goes on or is over. -/
def Progress.machine : Progress → Machine
  | running m => m
  | halted _ m => m

@[simp] theorem Progress.machine_running (m : Machine) : (running m).machine = m := rfl

@[simp] theorem Progress.machine_halted (fault : Option Fault) (m : Machine) :
    (halted fault m).machine = m := rfl

namespace Machine

/-! ## Plans -/

/-- What the next step of a machine does. -/
inductive Plan
  /-- The run is over before another instruction is begun. -/
  | stop (fault : Option Fault)
  /-- An instruction is begun, but its cell is not on the tape. -/
  | miss (fault : Fault)
  /-- An instruction is carried out on a cell. -/
  | carryOut (cell : Nat) (op : Op)

/-- The plan of the next step. -/
def plan (code : Array Word) (settings : Settings) (m : Machine) : Plan :=
  match code[m.counter]?, settings.cutOff? m.steps, fetch code m.counter with
  | none, _, _ => .stop none
  | some _, some fault, _ => .stop (some fault)
  | some word, none, none => .stop (some (.invalidOpcode m.counter word))
  | some _, none, some op =>
    match m.cell op.offset with
    | .ok i => .carryOut i op
    | .error fault => .miss fault

/-- The machine with one more step counted. -/
def counted (m : Machine) : Machine :=
  { m with steps := m.steps + 1 }

variable {code : Array Word} {settings : Settings}

/-- A step asks whether there is another word, and then whether the run is cut off. -/
theorem step_eq_cutOff (m : Machine) :
    m.step code settings =
      match code[m.counter]?, settings.cutOff? m.steps with
      | none, _ => .halted none m
      | some _, some fault => .halted (some fault) m
      | some word, none => m.execute code settings.eof word := by
  unfold step Settings.cutOff?
  cases code[m.counter]? with
  | none => rfl
  | some word =>
    cases settings.stepLimit with
    | none => rfl
    | some limit => by_cases hlimit : limit ≤ m.steps <;> simp [hlimit]

/-- **A step follows its plan.** -/
theorem step_eq_plan (m : Machine) :
    m.step code settings =
      match m.plan code settings with
      | .stop fault => .halted fault m
      | .miss fault => .halted (some fault) m.counted
      | .carryOut i op => m.counted.perform code.size settings.eof i op := by
  rw [step_eq_cutOff, plan]
  cases code[m.counter]? with
  | none => rfl
  | some word =>
    cases settings.cutOff? m.steps with
    | some fault => rfl
    | none =>
      simp only [execute]
      cases fetch code m.counter with
      | none => rfl
      | some op =>
        -- counting the step does not move the pointer
        have hsame : { m with steps := m.steps + 1 }.cell op.offset = m.cell op.offset := rfl
        cases hcell : m.cell op.offset <;> simp only [hsame, hcell] <;> rfl

/-! ## Output -/

/-- The byte that the next step prints, if it carries out an output instruction. -/
def printed? (code : Array Word) (settings : Settings) (m : Machine) : Option UInt8 :=
  match m.plan code settings with
  | .carryOut i (.output _) => some (m.value i)
  | _ => none

/-- The bytes that the next `n` steps print, or fewer steps if the run is over before. -/
def output (code : Array Word) (settings : Settings) : Nat → Machine → List UInt8
  | 0, _ => []
  | n + 1, m =>
    (m.printed? code settings).toList ++
      match m.step code settings with
      | .running m' => output code settings n m'
      | .halted _ _ => []

theorem jump_console (m : Machine) (size : Nat) (target : Int) :
    (m.jump size target).machine.console = m.console := by
  unfold jump
  split <;> rfl

/-- What an instruction that is carried out does with the console. -/
theorem perform_console (m : Machine) (size : Nat) (eof : EofPolicy) (i : Nat) (op : Op) :
    (m.perform size eof i op).machine.console =
      match op with
      | .input _ => m.console.readByte.2
      | .output _ => (m.console.push (m.value i)).2
      | _ => m.console := by
  cases op with
  | change o x => rfl
  | set o x => rfl
  | input o =>
    simp only [perform, readInto]
    split <;> rfl
  | output o =>
    simp only [perform, writeFrom]
    split <;> rfl
  | jumpIfZero o x =>
    simp only [perform]
    split
    · exact jump_console _ _ _
    · rfl
  | jumpIfNotZero o x =>
    simp only [perform]
    split
    · rfl
    · exact jump_console _ _ _

variable (code settings)

/-- **What a step does with the console**: it leaves it alone, or prints a byte, or reads one. -/
theorem step_console (m : Machine) :
    (m.printed? code settings = none ∧ (m.step code settings).machine.console = m.console) ∨
      (∃ b, m.printed? code settings = some b ∧
        (m.step code settings).machine.console = (m.console.push b).2) ∨
      (m.printed? code settings = none ∧
        (m.step code settings).machine.console = m.console.readByte.2) := by
  rw [step_eq_plan, printed?]
  cases m.plan code settings with
  | stop fault => exact .inl ⟨rfl, rfl⟩
  | miss fault => exact .inl ⟨rfl, rfl⟩
  | carryOut i op =>
    have hconsole := m.counted.perform_console code.size settings.eof i op
    cases op with
    | change o x => exact .inl ⟨rfl, hconsole⟩
    | set o x => exact .inl ⟨rfl, hconsole⟩
    | input o => exact .inr (.inr ⟨rfl, hconsole⟩)
    | output o => exact .inr (.inl ⟨_, rfl, hconsole⟩)
    | jumpIfZero o x => exact .inl ⟨rfl, hconsole⟩
    | jumpIfNotZero o x => exact .inl ⟨rfl, hconsole⟩

theorem calls_step (m : Machine) : m.calls <+: (m.step code settings).machine.calls := by
  rw [calls, calls]
  rcases step_console code settings m with ⟨-, h⟩ | ⟨b, -, h⟩ | ⟨-, h⟩
  · exact h ▸ List.prefix_rfl
  · rw [h]
    exact m.console.push_calls b
  · rw [h]
    exact m.console.readByte_calls

theorem calls_advance (n : Nat) (m : Machine) :
    m.calls <+: (advance code settings n m).machine.calls := by
  induction n generalizing m with
  | zero => exact List.prefix_rfl
  | succ n ih =>
    have hstep := calls_step code settings m
    rw [advance]
    cases h : m.step code settings with
    | running m' =>
      rw [h] at hstep
      exact hstep.trans (ih m')
    | halted fault e =>
      rw [h] at hstep
      exact hstep

/-! ## Delivery -/

variable {m : Machine}

/-- **A step prints what it should**, on a sink that does not fail. -/
theorem sent_step (h : m.console.streams.Reliable) :
    (m.step code settings).machine.console.streams.Reliable ∧
      (m.step code settings).machine.console.sent =
        m.console.sent ++ (m.printed? code settings).toList := by
  rcases step_console code settings m with
    ⟨hnone, hc⟩ | ⟨b, hb, hc⟩ | ⟨hnone, hc⟩
  · simp [hc, hnone, h]
  · obtain ⟨c, hpush, hreliable, hsent, -⟩ := Console.push_of_reliable h b
    simp [hc, hpush, hb, hreliable, hsent]
  · obtain ⟨c, hread, hreliable, hsent, -⟩ := Console.readByte_of_reliable h
    simp [hc, hread, hnone, hreliable, hsent]

theorem sent_advance (n : Nat) (h : m.console.streams.Reliable) :
    (advance code settings n m).machine.console.streams.Reliable ∧
      (advance code settings n m).machine.console.sent =
        m.console.sent ++ output code settings n m := by
  induction n generalizing m with
  | zero => exact ⟨h, (List.append_nil _).symm⟩
  | succ n ih =>
    obtain ⟨hreliable, hsent⟩ := sent_step code settings h
    rw [advance, output]
    cases hstep : m.step code settings with
    | running m' =>
      simp only [hstep, Progress.machine_running] at hreliable hsent
      obtain ⟨hreliable', hsent'⟩ := ih hreliable
      exact ⟨hreliable', by rw [hsent', hsent, List.append_assoc]⟩
    | halted fault e =>
      rw [hstep] at hreliable hsent
      exact ⟨hreliable, by rw [List.append_nil]; exact hsent⟩

end Machine

/-! ## Reads -/

namespace Streams

/-- Calls that add no read to those made before. -/
theorem exists_quiet {s s' : Streams} (hcalls : s.events.toList <+: s'.events.toList)
    (hreads : s'.readEvents = s.readEvents) :
    ∃ quiet, s'.events.toList = s.events.toList ++ quiet ∧ ∀ e ∈ quiet, e.isRead = false := by
  obtain ⟨quiet, hquiet⟩ := hcalls
  refine ⟨quiet, hquiet.symm, fun e he => ?_⟩
  rw [readEvents, readEvents, ← hquiet, List.filter_append] at hreads
  have hnone : quiet.filter Event.isRead = [] := by simpa using hreads
  simpa using List.filter_eq_nil_iff.mp hnone e he

end Streams

namespace Console

variable {c : Console}

/-- A read first writes out what is pending, and after that makes reads only. -/
theorem events_readByte (h : c.streams.Reliable) :
    ∃ quiet reads, c.readByte.2.streams.events.toList = c.streams.events.toList ++ quiet ++ reads ∧
      (∀ e ∈ quiet, e.isRead = false) ∧
      (c.streams.events.toList ++ quiet).flatMap Event.accepted = c.sent ∧
      ∀ e ∈ reads, e.accepted = [] := by
  have hcalls := c.flush_calls
  obtain ⟨c', hflush, -, haccepted, -, -, hreads⟩ := flush_of_reliable h
  rw [hflush] at hcalls
  obtain ⟨quiet, hevents, hquiet⟩ := Streams.exists_quiet hcalls hreads
  refine ⟨quiet, (Streams.serveRead c'.streams.reads).events, ?_, hquiet, ?_, ?_⟩
  · rw [← hevents]
    simp [readByte, hflush, Streams.readByte]
  · rw [← hevents]
    exact haccepted
  · simpa [List.flatMap_eq_nil_iff] using (Streams.events_serveRead c'.streams.reads).1

end Console

namespace Machine

variable {code : Array Word} {settings : Settings} {m : Machine} {before after : List Event}
  {reply : ReadReply}

/-- A read that is followed by calls without one was made before them. -/
theorem exists_of_append_quiet {made quiet : List Event} (hquiet : ∀ e ∈ quiet, e.isRead = false)
    (h : made ++ quiet = before ++ .read reply :: after) :
    ∃ between, made = before ++ .read reply :: between := by
  rcases List.append_eq_append_iff.mp h with ⟨between, hbefore, hquiet'⟩ | ⟨between, hmade, hafter⟩
  · exact absurd (hquiet (.read reply) (by simp [hquiet'])) nofun
  · cases between with
    | nil =>
      rw [← List.nil_append quiet, ← hafter] at hquiet
      exact absurd (hquiet _ List.mem_cons_self) nofun
    | cons e between =>
      obtain ⟨rfl, -⟩ := List.cons.inj hafter
      exact ⟨between, hmade⟩

/-- A read that follows calls without one was made after them. -/
theorem exists_of_quiet_append {made quiet : List Event} (hquiet : ∀ e ∈ quiet, e.isRead = false)
    (h : quiet ++ made = before ++ .read reply :: after) :
    ∃ between, before = quiet ++ between ∧ made = between ++ .read reply :: after := by
  rcases List.append_eq_append_iff.mp h with ⟨between, hbefore, hmade⟩ | ⟨between, hquiet', hafter⟩
  · exact ⟨between, hbefore, hmade⟩
  · cases between with
    | nil =>
      rw [List.append_nil] at hquiet'
      exact ⟨[], by rw [hquiet', List.append_nil], hafter.symm⟩
    | cons e between =>
      obtain ⟨rfl, -⟩ := List.cons.inj hafter
      exact absurd (hquiet (.read reply) (by simp [hquiet'])) nofun

/-- No read is found among calls without one. -/
theorem not_read_of_quiet {quiet : List Event} (hquiet : ∀ e ∈ quiet, e.isRead = false) :
    m.calls ++ quiet ≠ m.calls ++ before ++ .read reply :: after := by
  intro h
  obtain ⟨between, hmade⟩ := exists_of_append_quiet hquiet h
  simp at hmade

/-- **A step that reads has delivered everything before the read.** -/
theorem accepted_of_step_read (h : m.console.streams.Reliable)
    (hcalls : (m.step code settings).machine.calls = m.calls ++ before ++ .read reply :: after) :
    (m.calls ++ before).flatMap Event.accepted = m.console.sent := by
  rw [calls] at hcalls
  rcases step_console code settings m with ⟨-, hc⟩ | ⟨b, -, hc⟩ | ⟨-, hc⟩
  · rw [hc, ← List.append_nil m.console.streams.events.toList] at hcalls
    exact absurd hcalls (not_read_of_quiet nofun)
  · obtain ⟨c, hpush, -, -, -, hreads⟩ := Console.push_of_reliable h b
    have hprefix := m.console.push_calls b
    rw [hpush] at hc hprefix
    obtain ⟨quiet, hevents, hquiet⟩ := Streams.exists_quiet hprefix hreads
    rw [hc, hevents] at hcalls
    exact absurd hcalls (not_read_of_quiet hquiet)
  · obtain ⟨quiet, reads, hevents, hquiet, hsent, hreads⟩ := Console.events_readByte h
    rw [hc, hevents] at hcalls
    rw [List.append_assoc, calls, List.append_assoc, List.append_cancel_left_eq] at hcalls
    obtain ⟨between, rfl, hbetween⟩ := exists_of_quiet_append hquiet hcalls
    have hnone : between.flatMap Event.accepted = [] :=
      List.flatMap_eq_nil_iff.mpr fun e he => hreads e (by simp [hbetween, he])
    rw [calls, ← List.append_assoc, List.flatMap_append, hnone, hsent, List.append_nil]

/-- The call that follows the calls `before` is made by the step after the first `k` steps. -/
def MakesCall (code : Array Word) (settings : Settings) (m : Machine) (k : Nat)
    (before : List Event) (call : Event) : Prop :=
  ∃ mid, advance code settings k m = .running mid ∧ mid.calls <+: before ∧
    before ++ [call] <+: (mid.step code settings).machine.calls

/-- **Every read of a run finds everything delivered that the steps before it have printed.** -/
theorem accepted_of_read (n : Nat) (h : m.console.streams.Reliable)
    (hcalls : (advance code settings n m).machine.calls = before ++ .read reply :: after)
    (hbefore : m.calls <+: before) :
    ∃ k, MakesCall code settings m k before (.read reply) ∧
      before.flatMap Event.accepted = m.console.sent ++ output code settings k m := by
  have hmade : before ++ [Event.read reply] <+: before ++ .read reply :: after := ⟨after, by simp⟩
  induction n generalizing m with
  | zero =>
    have hlength := congrArg List.length hcalls
    have hle := hbefore.length_le
    simp only [advance, Progress.machine_running, List.length_append, List.length_cons] at hlength
    omega
  | succ n ih =>
    -- the read is made by this step or by a later one
    by_cases hnow : before ++ [.read reply] <+: (m.step code settings).machine.calls
    · refine ⟨0, ⟨m, rfl, hbefore, hnow⟩, ?_⟩
      obtain ⟨later, hlater⟩ := hnow
      obtain ⟨new, rfl⟩ := hbefore
      rw [output, List.append_nil]
      apply accepted_of_step_read h
      rw [← hlater, List.append_assoc _ [_], List.singleton_append]
    · obtain ⟨hreliable, hsent⟩ := sent_step code settings h
      rw [advance] at hcalls
      cases hstep : m.step code settings with
      | halted fault e =>
        rw [hstep] at hcalls hnow
        exact absurd (hcalls ▸ hmade) hnow
      | running m' =>
        simp only [hstep, Progress.machine_running] at hcalls hnow hreliable hsent
        have hbefore' : m'.calls <+: before := by
          have hgrows := calls_advance code settings n m'
          rw [hcalls] at hgrows
          rcases List.prefix_or_prefix_of_prefix hgrows hmade with hle | hge
          · rcases List.prefix_concat_iff.mp hle with heq | hle
            · exact absurd (heq ▸ List.prefix_rfl) hnow
            · exact hle
          · exact absurd hge hnow
        obtain ⟨k, ⟨mid, hmid, hcalls', hread⟩, haccepted⟩ := ih hreliable hcalls hbefore'
        refine ⟨k + 1, ⟨mid, ?_, hcalls', hread⟩, ?_⟩
        · rw [advance, hstep]
          exact hmid
        · rw [haccepted, hsent, output, hstep, List.append_assoc]

end Machine

/-! ## Two runs -/

/-- The replies without the interruptions among them. -/
def Streams.uninterrupted (replies : List ReadReply) : List ReadReply :=
  replies.filter (· ≠ .interrupted)

/-- A read answers as if nothing had been interrupted. -/
theorem Streams.serveRead_uninterrupted (replies : List ReadReply) :
    (serveRead replies).result = (serveRead (uninterrupted replies)).result ∧
      uninterrupted (serveRead replies).rest = (serveRead (uninterrupted replies)).rest := by
  induction replies with
  | nil => exact ⟨rfl, rfl⟩
  | cons reply rest ih =>
    cases reply with
    | byte value => exact ⟨rfl, rfl⟩
    | endOfInput => exact ⟨rfl, rfl⟩
    | failed => exact ⟨rfl, rfl⟩
    | interrupted => exact ih

/-- Two consoles that will give the same input, apart from interruptions, and whose sinks will not
fail. They may have different buffers, and their sinks may take the output in different parts. -/
structure Console.Mirrors (c c' : Console) : Prop where
  script : Streams.uninterrupted c.streams.reads = Streams.uninterrupted c'.streams.reads
  reliable : c.streams.Reliable
  reliable' : c'.streams.Reliable

namespace Console.Mirrors

variable {c c' : Console}

theorem push (h : c.Mirrors c') (b : UInt8) :
    ∃ d d', c.push b = (.ok (), d) ∧ c'.push b = (.ok (), d') ∧ d.Mirrors d' := by
  obtain ⟨d, hpush, hd, -, hreads, -⟩ := push_of_reliable h.reliable b
  obtain ⟨d', hpush', hd', -, hreads', -⟩ := push_of_reliable h.reliable' b
  exact ⟨d, d', hpush, hpush', by rw [hreads, hreads']; exact h.script, hd, hd'⟩

theorem readByte (h : c.Mirrors c') :
    ∃ result d d', c.readByte = (result, d) ∧ c'.readByte = (result, d') ∧ d.Mirrors d' := by
  obtain ⟨d, hread, hd, -, hreads, -⟩ := readByte_of_reliable h.reliable
  obtain ⟨d', hread', hd', -, hreads', -⟩ := readByte_of_reliable h.reliable'
  obtain ⟨hresult, hrest⟩ := Streams.serveRead_uninterrupted c.streams.reads
  obtain ⟨hresult', hrest'⟩ := Streams.serveRead_uninterrupted c'.streams.reads
  rw [h.script] at hresult hrest
  refine ⟨_, d, d', hread, ?_, ?_, hd, hd'⟩
  · rw [hread', hresult, hresult']
  · rw [hreads, hreads', hrest, hrest']

end Console.Mirrors

/-- Two runs that stand at the same place, with consoles that mirror each other. -/
inductive Progress.Mirrors : Progress → Progress → Prop
  | running {m : Machine} {c' : Console} (h : m.console.Mirrors c') :
      Mirrors (.running m) (.running { m with console := c' })
  | halted {m : Machine} {c' : Console} (fault : Option Fault) (h : m.console.Mirrors c') :
      Mirrors (.halted fault m) (.halted fault { m with console := c' })

namespace Machine

variable {m : Machine} {c' : Console}

theorem mirrors_jump (h : m.console.Mirrors c') (size : Nat) (target : Int) :
    (m.jump size target).Mirrors ({ m with console := c' }.jump size target) := by
  unfold jump
  split
  · exact .running h
  · exact .halted _ h

/-- An instruction does the same with consoles that mirror each other. -/
theorem mirrors_perform (h : m.console.Mirrors c') (size : Nat) (eof : EofPolicy) (i : Nat)
    (op : Op) :
    (m.perform size eof i op).Mirrors ({ m with console := c' }.perform size eof i op) := by
  have hvalue : ({ m with console := c' } : Machine).value i = m.value i := rfl
  cases op with
  | change o x => exact .running h
  | set o x => exact .running h
  | input o =>
    obtain ⟨result, d, d', hread, hread', hd⟩ := h.readByte
    simp only [perform, readInto, hread, hread']
    split
    · exact .running hd
    · exact .running hd
    · exact .halted _ hd
    · exact .halted _ hd
  | output o =>
    obtain ⟨d, d', hpush, hpush', hd⟩ := h.push (m.value i)
    simp only [perform, writeFrom, hvalue, hpush, hpush']
    exact .running hd
  | jumpIfZero o x =>
    simp only [perform, hvalue]
    by_cases hzero : m.value i = 0
    · rw [if_pos hzero, if_pos hzero]
      exact mirrors_jump (m := m.moveTo i) h size _
    · rw [if_neg hzero, if_neg hzero]
      exact .running (m := { m.moveTo i with counter := m.counter + 3 }) h
  | jumpIfNotZero o x =>
    simp only [perform, hvalue]
    by_cases hzero : m.value i = 0
    · rw [if_pos hzero, if_pos hzero]
      exact .running (m := { m.moveTo i with counter := m.counter + 3 }) h
    · rw [if_neg hzero, if_neg hzero]
      exact mirrors_jump (m := m.moveTo i) h size _

variable (code : Array Word) (settings : Settings) (threshold : Nat)

/-- **A step does the same**, whatever the size of the buffer. -/
theorem mirrors_step (h : m.console.Mirrors c') :
    (m.step code settings).Mirrors
      ({ m with console := c' }.step code { settings with flushThreshold := threshold }) := by
  have hplan : { m with console := c' }.plan code { settings with flushThreshold := threshold } =
      m.plan code settings := rfl
  rw [step_eq_plan, step_eq_plan, hplan]
  cases m.plan code settings with
  | stop fault => exact .halted fault h
  | miss fault => exact .halted _ h
  | carryOut i op => exact mirrors_perform (m := m.counted) h code.size settings.eof i op

/-- **Two runs with consoles that mirror each other stay at the same place**, and print the same. -/
theorem mirrors_advance (n : Nat) (h : m.console.Mirrors c') :
    (advance code settings n m).Mirrors
        (advance code { settings with flushThreshold := threshold } n { m with console := c' }) ∧
      output code { settings with flushThreshold := threshold } n { m with console := c' } =
        output code settings n m := by
  induction n generalizing m c' with
  | zero => exact ⟨.running h, rfl⟩
  | succ n ih =>
    have hprinted : { m with console := c' }.printed? code
        { settings with flushThreshold := threshold } = m.printed? code settings := rfl
    have hstep := mirrors_step code settings threshold h
    rw [advance, advance, output, output, hprinted]
    generalize m.step code settings = p at hstep
    generalize { m with console := c' }.step code _ = p' at hstep
    cases hstep with
    | running hm =>
      obtain ⟨hadvance, houtput⟩ := ih hm
      exact ⟨hadvance, congrArg (_ ++ ·) houtput⟩
    | halted fault hm => exact ⟨.halted fault hm, rfl⟩

variable {code settings}

/-- A run that is over is over in the same way with a console that mirrors its own, and has printed
the same. -/
theorem exists_halted_of_mirrors {n : Nat} {fault : Option Fault} {e : Machine}
    (h : m.console.Mirrors c') (hrun : advance code settings n m = .halted fault e) :
    ∃ d, advance code { settings with flushThreshold := threshold } n { m with console := c' } =
        .halted fault { e with console := d } ∧
      d.streams.Reliable ∧ d.sent = c'.sent ++ output code settings n m := by
  obtain ⟨hmirrors, houtput⟩ := mirrors_advance code settings threshold n h
  obtain ⟨hreliable, hsent⟩ := sent_advance code { settings with flushThreshold := threshold } n
    (m := { m with console := c' }) h.reliable'
  rw [houtput] at hsent
  rw [hrun] at hmirrors
  generalize advance code _ n { m with console := c' } = p' at hmirrors hreliable hsent ⊢
  cases hmirrors with
  | halted fault he => exact ⟨_, rfl, hreliable, hsent⟩

/-! ## Whole executions -/

/-- The last write delivers the rest, and makes no read. -/
theorem finish_of_reliable (h : m.console.streams.Reliable) (fault : Option Fault) :
    ∃ c quiet, m.finish fault = (fault, { m with console := c }) ∧
      c.streams.accepted = m.console.sent ∧
      c.streams.events.toList = m.calls ++ quiet ∧ ∀ e ∈ quiet, e.isRead = false := by
  have hcalls := m.console.flush_calls
  obtain ⟨c, hflush, -, haccepted, -, -, hreads⟩ := Console.flush_of_reliable h
  rw [hflush] at hcalls
  obtain ⟨quiet, hevents, hquiet⟩ := Streams.exists_quiet hcalls hreads
  exact ⟨c, quiet, by simp only [finish, hflush], haccepted, hevents, hquiet⟩

/-- A machine that is loaded has printed nothing. -/
@[simp] theorem sent_load (settings : Settings) (streams : Streams) :
    (load settings streams).console.sent = streams.accepted := by
  simp [load, Console.sent]

/-- Every read of a run from the beginning finds everything delivered that has been printed. -/
theorem accepted_of_read_load {streams : Streams} (h : streams.Reliable) (n : Nat)
    (hcalls : (advance code settings n (load settings streams)).machine.calls =
      streams.events.toList ++ before ++ .read reply :: after) :
    ∃ k, MakesCall code settings (load settings streams) k (streams.events.toList ++ before)
        (.read reply) ∧
      before.flatMap Event.accepted = output code settings k (load settings streams) := by
  obtain ⟨k, hcall, hbefore⟩ := accepted_of_read n h hcalls (List.prefix_append _ before)
  rw [List.flatMap_append, sent_load] at hbefore
  exact ⟨k, hcall, List.append_cancel_left hbefore⟩

end Machine

/-- **The output is delivered exactly, however the streams are scheduled.** On a sink that does not
fail, every read of a run, whether or not the run is ever over, finds that the sink has accepted all
that the steps before it have printed. When an execution is over, the sink has accepted the bytes
that the steps of the run have printed, in order, and nothing else. With another size of the buffer,
another such sink and other interruptions of the input, the execution ends in the same way and
delivers the same bytes. -/
theorem output_delivered {code : Bytecode} {settings : Settings} {streams : Streams}
    (hsink : streams.Reliable) :
    (∀ n before reply after,
      (Machine.advance code.toArray settings n (.load settings streams)).machine.calls =
          streams.events.toList ++ before ++ .read reply :: after →
        ∃ k, Machine.MakesCall code.toArray settings (.load settings streams) k
            (streams.events.toList ++ before) (.read reply) ∧
          before.flatMap Event.accepted =
            Machine.output code.toArray settings k (.load settings streams)) ∧
    ∀ fault m, Executes code settings streams fault m →
      ∃ n last,
        Machine.advance code.toArray settings n (.load settings streams) = .halted fault last ∧
        m.console.streams.accepted =
          streams.accepted ++ Machine.output code.toArray settings n (.load settings streams) ∧
        (∀ before reply after, m.calls = streams.events.toList ++ before ++ .read reply :: after →
          ∃ k, Machine.MakesCall code.toArray settings (.load settings streams) k
              (streams.events.toList ++ before) (.read reply) ∧
            before.flatMap Event.accepted =
              Machine.output code.toArray settings k (.load settings streams)) ∧
        ∀ threshold streams', streams'.Reliable →
          Streams.uninterrupted streams.reads = Streams.uninterrupted streams'.reads →
          ∃ c', Executes code { settings with flushThreshold := threshold } streams' fault
              { m with console := c' } ∧
            c'.streams.accepted =
              streams'.accepted ++
                Machine.output code.toArray settings n (.load settings streams) := by
  refine ⟨fun n before reply after => Machine.accepted_of_read_load hsink n, ?_⟩
  rintro fault m ⟨cause, last, ⟨n, hrun⟩, hfinish⟩
  obtain ⟨hreliable, hsent⟩ :=
    Machine.sent_advance code.toArray settings n (m := .load settings streams) hsink
  rw [hrun, Progress.machine_halted] at hreliable hsent
  obtain ⟨c, quiet, hfinish', haccepted, hevents, hquiet⟩ :=
    Machine.finish_of_reliable hreliable cause
  obtain ⟨rfl, rfl⟩ := Prod.mk.inj (hfinish.symm.trans hfinish')
  refine ⟨n, last, hrun, ?_, ?_, ?_⟩
  · rw [haccepted, hsent, Machine.sent_load]
  · -- the last write makes no read, so the run itself has made it
    intro before reply after hcalls
    obtain ⟨between, hmade⟩ := Machine.exists_of_append_quiet hquiet (hevents.symm.trans hcalls)
    have hcalls' :
        (Machine.advance code.toArray settings n (.load settings streams)).machine.calls =
          streams.events.toList ++ before ++ .read reply :: between := by
      rw [hrun, Progress.machine_halted, hmade]
    exact Machine.accepted_of_read_load hsink n hcalls'
  · intro threshold streams' hsink' hscript
    have hload : (Machine.load settings streams).console.Mirrors
        { threshold := threshold, streams := streams' } := ⟨hscript, hsink, hsink'⟩
    obtain ⟨d, hrun', hd, hsent'⟩ := Machine.exists_halted_of_mirrors threshold hload hrun
    obtain ⟨c', -, hfinish', haccepted', -⟩ :=
      Machine.finish_of_reliable (m := { last with console := d }) hd fault
    refine ⟨c', ⟨fault, _, ⟨n, hrun'⟩, hfinish'⟩, ?_⟩
    rw [haccepted', hsent']
    simp [Console.sent]

/-- The code prints, reads and prints twice. It is executed once with a large buffer on a sink that
takes one byte at a time, and once without a buffer and with interrupted reads. -/
theorem output_delivered_of_echo :
    ∃ m c', Executes ([Op.output 0, .input 0, .output 0, .output 0].flatMap Op.words)
          { tapeSize := 1, flushThreshold := 9 }
          { reads := [.byte 7], writes := [.interrupted, .all, .atMost 1, .interrupted] } none m ∧
        m.console.streams.accepted = [0, 7, 7] ∧
        (∃ k, Machine.MakesCall
            ([Op.output 0, .input 0, .output 0, .output 0].flatMap Op.words).toArray
            { tapeSize := 1, flushThreshold := 9 }
            (.load { tapeSize := 1, flushThreshold := 9 }
              { reads := [.byte 7], writes := [.interrupted, .all, .atMost 1, .interrupted] })
            k [.write [0] .interrupted, .write [0] (.accepted 1), .flush .done] (.read (.byte 7))) ∧
        Executes ([Op.output 0, .input 0, .output 0, .output 0].flatMap Op.words)
          { tapeSize := 1, flushThreshold := 0 }
          { reads := [.interrupted, .byte 7, .interrupted] } none { m with console := c' } ∧
        c'.streams.accepted = [0, 7, 7] := by
  obtain ⟨hread, hexact⟩ :=
    @output_delivered ([Op.output 0, .input 0, .output 0, .output 0].flatMap Op.words)
      { tapeSize := 1, flushThreshold := 9 }
      { reads := [.byte 7], writes := [.interrupted, .all, .atMost 1, .interrupted] }
      ⟨by decide, by decide⟩
  obtain ⟨n, last, -, haccepted, -, hother⟩ := hexact none _ ⟨none, _, ⟨5, rfl⟩, rfl⟩
  -- the run has made the read after two steps already
  obtain ⟨k, hcall, -⟩ := hread 2 [.write [0] .interrupted, .write [0] (.accepted 1), .flush .done]
    (.byte 7) _ rfl
  obtain ⟨c', hexec', haccepted'⟩ := hother 0 { reads := [.interrupted, .byte 7, .interrupted] }
    ⟨by decide, by decide⟩ rfl
  exact ⟨_, c', ⟨none, _, ⟨5, rfl⟩, rfl⟩, rfl, ⟨k, hcall⟩, hexec', haccepted'.trans haccepted.symm⟩

end Tapecode
