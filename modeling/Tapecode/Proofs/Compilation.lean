import Mathlib.Tactic.Common
import Tapecode.Proofs.Execution
import Tapecode.Proofs.Structured

/-!
# The machine runs what a nest means

The words of a nest may stand anywhere in the code (`Placed`). Started at the first of them, the
machine does what the structured run of the nest does. A run of the nest that ends without a fault
takes the machine to the address after its words, and a fault ends the machine's run with the same
fault (`Nest.Runs.carries`). In the other direction, if the machine's run is over at some time, then
the structured run of the nest has an outcome (`Nest.exists_runs_of_halts`). Together: the encoding
of a nest executes as the nest runs (`Nest.executes_of_runs`, `Nest.runs_of_executes`).

A loop is tested twice in the code, by the jump at its start and by the jump at its end. Both leave
the machine at the same two addresses, `afterTest`, so one induction over the rounds serves both.
-/

namespace Tapecode

open Machine Behaviour

/-! ## Words in the code -/

/-- The words `ws` stand in the code from `address` on. -/
def Placed (code : Array Word) (address : Nat) (ws : List Word) : Prop :=
  ∃ before after, code.toList = before ++ (ws ++ after) ∧ before.length = address

namespace Placed

variable {code : Array Word} {address : Nat} {ws vs : List Word}

theorem whole (ws : List Word) : Placed ws.toArray 0 ws :=
  ⟨[], [], by simp, rfl⟩

theorem left (h : Placed code address (ws ++ vs)) : Placed code address ws := by
  obtain ⟨before, after, hcode, hlen⟩ := h
  exact ⟨before, vs ++ after, by rw [hcode, List.append_assoc], hlen⟩

theorem right (h : Placed code address (ws ++ vs)) : Placed code (address + ws.length) vs := by
  obtain ⟨before, after, hcode, hlen⟩ := h
  refine ⟨before ++ ws, after, ?_, ?_⟩
  · rw [hcode, List.append_assoc, List.append_assoc]
  · rw [List.length_append, hlen]

theorem add_length_le (h : Placed code address ws) : address + ws.length ≤ code.size := by
  obtain ⟨before, after, hcode, hlen⟩ := h
  have hsize := congrArg List.length hcode
  simp only [List.length_append, Array.length_toList] at hsize
  omega

theorem getElem? (h : Placed code address ws) {i : Nat} (hi : i < ws.length) :
    code[address + i]? = ws[i]? := by
  obtain ⟨before, after, hcode, rfl⟩ := h
  rw [← Array.getElem?_toList, hcode, List.getElem?_append_right (Nat.le_add_right _ _),
    Nat.add_sub_cancel_left, List.getElem?_append_left hi]

/-- The machine fetches the instruction whose words are placed. -/
theorem fetch {op : Op} (h : Placed code address op.words) : fetch code address = some op := by
  have hget (i : Nat) (w : Word) (hw : op.words[i]? = some w) : code[address + i]? = some w := by
    rw [h.getElem? (List.getElem?_eq_some_iff.mp hw).1, hw]
  have hword : code[address]? = some op.opcode.word := hget 0 _ rfl
  cases op with
  | input o | output o =>
    simp only [Tapecode.fetch, hword, hget 1 o rfl, Option.bind_eq_bind, Option.bind_some,
      Opcode.ofWord?_word, Op.opcode]
  | change o x | set o x | jumpIfZero o x | jumpIfNotZero o x =>
    simp only [Tapecode.fetch, hword, hget 1 o rfl, hget 2 x rfl, Option.bind_eq_bind,
      Option.bind_some, Opcode.ofWord?_word, Op.opcode, Option.map_some]

end Placed

/-- A fetched instruction starts with a word of the code. -/
theorem exists_word_of_fetch {code : Array Word} {address : Nat} {op : Op}
    (h : fetch code address = some op) : ∃ word, code[address]? = some word := by
  cases hword : code[address]? with
  | none => simp [fetch, hword] at h
  | some word => exact ⟨word, rfl⟩

/-! ## Single instructions -/

/-- The machine in a state, at an address. -/
def State.machine (s : State) (address : Nat) : Machine :=
  { tape := s.tape, pointer := s.pointer, counter := address, steps := s.steps,
    console := s.console }

/-- The machine after an instruction at `here`, which goes on at `next` unless there is a fault. -/
def Outcome.progress (here : Nat) (next : State → Nat) : Outcome → Progress
  | .done t => .running (t.machine (next t))
  | .fault cause t => .halted (some cause) (t.machine here)

/-- Where a loop goes on after its cell has been tested. -/
def afterTest (inside outside : Nat) (s : State) : Nat :=
  if s.current = 0 then outside else inside

variable {code : Array Word} {settings : Settings} {address : Nat}

/-- A step at an instruction begins it and then carries it out. -/
theorem step_of_fetch {op : Op} (s : State) (h : fetch code address = some op) :
    (s.machine address).step code settings =
      match settings.cutOff? s.steps with
      | some cause => .halted (some cause) (s.machine address)
      | none =>
        match locate s.tape.size (s.pointer + op.offset) with
        | .ok i => (s.counted.machine address).perform code.size settings.eof i op
        | .error cause => .halted (some cause) (s.counted.machine address) := by
  obtain ⟨word, hword⟩ := exists_word_of_fetch h
  have hfetch : fetch code (s.machine address).counter = some op := h
  have hexecute : (s.machine address).execute code settings.eof word =
      match locate s.tape.size (s.pointer + op.offset) with
      | .ok i => (s.counted.machine address).perform code.size settings.eof i op
      | .error cause => .halted (some cause) (s.counted.machine address) := by
    simp only [Machine.execute, hfetch]
    rfl
  have hcode : code[(s.machine address).counter]? = some word := hword
  have hsteps : (s.machine address).steps = s.steps := rfl
  simp only [Machine.step, hcode, hexecute, hsteps, Settings.cutOff?]
  cases settings.stepLimit with
  | none => rfl
  | some limit =>
    by_cases hlimit : limit ≤ s.steps
    · simp only [hlimit, ↓reduceIte]
    · simp only [hlimit, ↓reduceIte]

theorem step_act {e : Effect} {o : Int} (s : State) (h : Placed code address (e.op o).words) :
    (s.machine address).step code settings =
      (e.run settings o s).progress address fun _ => address + (e.op o).words.length := by
  rw [step_of_fetch s h.fetch, Effect.run, State.visit]
  cases settings.cutOff? s.steps with
  | some cause => rfl
  | none =>
    have hoffset : (e.op o).offset = o := by cases e <;> rfl
    rw [hoffset]
    cases locate s.tape.size (s.pointer + o) with
    | error cause => rfl
    | ok i =>
      cases e with
      | set v => rfl
      | change d => rfl
      | input =>
        have hconsole : (s.counted.machine address).console = s.counted.console := rfl
        simp only [Effect.op, perform, readInto, Effect.perform, hconsole]
        rcases s.counted.console.readByte with ⟨_ | _ | b, console⟩
        · rfl
        · cases settings.eof <;> rfl
        · rfl
      | output =>
        have hconsole : (s.counted.machine address).console = s.counted.console := rfl
        have hvalue : (s.counted.machine address).value i = s.counted.value i := rfl
        simp only [Effect.op, perform, writeFrom, Effect.perform, hconsole, hvalue]
        rcases s.counted.console.push (s.counted.value i) with ⟨_ | _, console⟩ <;> rfl

/-- A jump to an address in the code. -/
theorem jump_machine (s : State) {target : Int} {next : Nat} (heq : target = next)
    (hle : next ≤ code.size) :
    (s.machine address).jump code.size target = .running (s.machine next) := by
  subst heq
  have hin : 0 ≤ (next : Int) ∧ (next : Int) ≤ code.size := by omega
  rw [jump, if_pos hin]
  rfl

theorem step_enter {entry : Int} {distance : Nat} (s : State)
    (h : Placed code address (Op.jumpIfZero entry distance).words)
    (hend : address + 3 + distance ≤ code.size) :
    (s.machine address).step code settings =
      (s.moveBy settings entry).progress address
        (afterTest (address + 3) (address + 3 + distance)) := by
  rw [step_of_fetch s h.fetch, State.moveBy, State.visit]
  cases settings.cutOff? s.steps with
  | some cause => rfl
  | none =>
    simp only [Op.offset]
    cases locate s.tape.size (s.pointer + entry) with
    | error cause => rfl
    | ok i =>
      have hvalue : (s.counted.machine address).value i = s.counted.value i := rfl
      simp only [perform, hvalue, Outcome.progress, afterTest, State.current_movedTo]
      by_cases hzero : s.counted.value i = 0
      · simp only [hzero, ↓reduceIte]
        exact jump_machine (s.counted.movedTo i) (by simp [State.machine]) hend
      · simp only [hzero, ↓reduceIte]
        rfl

theorem step_leave {exit : Int} {distance : Nat} (s : State)
    (h : Placed code address (Op.jumpIfNotZero exit distance).words)
    (hstart : distance ≤ address + 3) :
    (s.machine address).step code settings =
      (s.moveBy settings exit).progress address
        (afterTest (address + 3 - distance) (address + 3)) := by
  rw [step_of_fetch s h.fetch, State.moveBy, State.visit]
  cases settings.cutOff? s.steps with
  | some cause => rfl
  | none =>
    simp only [Op.offset]
    cases locate s.tape.size (s.pointer + exit) with
    | error cause => rfl
    | ok i =>
      have hvalue : (s.counted.machine address).value i = s.counted.value i := rfl
      have hsize : address + 3 ≤ code.size := h.add_length_le
      simp only [perform, hvalue, Outcome.progress, afterTest, State.current_movedTo]
      by_cases hzero : s.counted.value i = 0
      · simp only [hzero, ↓reduceIte]
        rfl
      · simp only [hzero, ↓reduceIte]
        refine jump_machine (s.counted.movedTo i) ?_ (by omega)
        simp only [State.machine]
        omega

/-! ## From structured runs to the machine -/

/-- From `m`, the machine brings about an outcome: it comes to the address `next` in the state
without a fault, or its run is over with the fault. -/
def Carries (code : Array Word) (settings : Settings) (m : Machine) (next : Nat) : Outcome → Prop
  | .done t => Reaches code settings m (t.machine next)
  | .fault cause t => ∃ address, Halts code settings m (some cause) (t.machine address)

theorem Reaches.carries {m m' : Machine} {next : Nat} {r : Outcome}
    (h : Reaches code settings m m') (h' : Carries code settings m' next r) :
    Carries code settings m next r := by
  cases r with
  | done t => exact h.trans h'
  | fault cause t =>
    obtain ⟨address, h'⟩ := h'
    exact ⟨address, h.halts_iff.mpr h'⟩

/-- The words of a loop, piece by piece: the jump at its start, its body, the jump at its end, and
what follows. -/
theorem placed_loop {entry exit : Int} {body rest : Nest}
    (h : Placed code address (Nest.loop entry body exit rest).encode) :
    Placed code address (Op.jumpIfZero entry ((body.encode.length + 3 : Nat) : Int)).words ∧
      Placed code (address + 3) body.encode ∧
      Placed code (address + 3 + body.encode.length)
        (Op.jumpIfNotZero exit ((body.encode.length + 3 : Nat) : Int)).words ∧
      Placed code (address + 3 + (body.encode.length + 3)) rest.encode := by
  have hinner := h.right
  have hend := hinner.right
  exact ⟨h.left, hinner.left, hend.left, hend.right⟩

theorem length_encode_loop (entry exit : Int) (body rest : Nest) :
    (Nest.loop entry body exit rest).encode.length =
      3 + (body.encode.length + 3) + rest.encode.length := by
  simp only [Nest.encode, List.length_append, Op.length_words]
  change 3 + (body.encode.length + (3 + rest.encode.length)) = _
  omega

/-- The rounds of a loop, from a test of its cell on. -/
theorem Behaviour.Iterates.carries {body : Behaviour} {exit : Int} {inside size : Nat} {t : State}
    {r : Outcome}
    (hplaced : Placed code (inside + size) (Op.jumpIfNotZero exit ((size + 3 : Nat) : Int)).words)
    (hbody : ∀ s r, body s r → Carries code settings (s.machine inside) (inside + size) r)
    (h : Iterates (round settings body exit) t r) :
    Carries code settings (t.machine (afterTest inside (inside + (size + 3)) t))
      (inside + (size + 3)) r := by
  -- the jump at the end leads to the same two addresses as the test that went before
  have hleave (s : State) : (s.machine (inside + size)).step code settings =
      (s.moveBy settings exit).progress (inside + size)
        (afterTest inside (inside + (size + 3))) := by
    have hstart : inside + size + 3 - (size + 3) = inside := by omega
    rw [step_leave s hplaced (by omega), hstart, Nat.add_assoc inside size 3]
  induction h with
  | @stop s hzero =>
    rw [afterTest, if_pos hzero]
    exact .refl _
  | @fail s u cause hcell hround =>
    rw [afterTest, if_neg hcell]
    rcases Behaviour.seq_inv hround with ⟨cause', u', hfault, he⟩ | ⟨v, hdone, hmove⟩
    · cases he
      exact hbody s _ hfault
    · have hstep := hleave v
      rw [show v.moveBy settings exit = .fault cause u from hmove] at hstep
      exact Reaches.carries (hbody s _ hdone) ⟨_, Halts.of_step hstep⟩
  | @again s u r hcell hround _ ih =>
    rw [afterTest, if_neg hcell]
    rcases Behaviour.seq_inv hround with ⟨cause', u', -, he⟩ | ⟨v, hdone, hmove⟩
    · cases he
    · have hstep := hleave v
      rw [show v.moveBy settings exit = .done u from hmove] at hstep
      exact Reaches.carries (hbody s _ hdone) (Reaches.carries (.of_step hstep) ih)

namespace Nest

/-- **The machine carries out the structured run of a nest** whose words it comes to. -/
theorem Runs.carries {n : Nest} {s : State} {r : Outcome} (hplaced : Placed code address n.encode)
    (h : n.Runs settings s r) :
    Carries code settings (s.machine address) (address + n.encode.length) r := by
  induction n generalizing address s r with
  | done =>
    obtain rfl : Outcome.done s = r := h
    exact .refl _
  | act e o rest ih =>
    have hstep : (s.machine address).step code settings = _ := step_act s hplaced.left
    rw [Nest.encode, List.length_append, ← Nat.add_assoc]
    rcases Behaviour.seq_inv h with ⟨cause, t, hrun, rfl⟩ | ⟨t, hrun, hrest⟩
    · rw [show e.run settings o s = .fault cause t from hrun] at hstep
      exact ⟨_, Halts.of_step hstep⟩
    · rw [show e.run settings o s = .done t from hrun] at hstep
      exact Reaches.carries (.of_step hstep) (ih hplaced.right hrest)
  | loop entry body exit rest ihBody ihRest =>
    obtain ⟨henter, hinner, hleave, hafter⟩ := placed_loop hplaced
    have hend : address + 3 + (body.encode.length + 3) ≤ code.size := by
      have := hleave.add_length_le
      simp only [Op.length_words] at this
      change address + 3 + body.encode.length + 3 ≤ code.size at this
      omega
    have hstep : (s.machine address).step code settings = _ := step_enter s henter hend
    rw [length_encode_loop, ← Nat.add_assoc, ← Nat.add_assoc]
    have hbody (s : State) (r : Outcome) (hrun : body.Runs settings s r) :
        Carries code settings (s.machine (address + 3)) (address + 3 + body.encode.length) r :=
      ihBody hinner hrun
    rcases Behaviour.seq_inv h with ⟨cause, t, hfault, rfl⟩ | ⟨t, hdone, hrest⟩
    · rcases Behaviour.seq_inv hfault with ⟨cause', t', hmove, he⟩ | ⟨u, hmove, hiter⟩
      · cases he
        rw [show s.moveBy settings entry = .fault cause t from hmove] at hstep
        exact ⟨_, Halts.of_step hstep⟩
      · rw [show s.moveBy settings entry = .done u from hmove] at hstep
        exact Reaches.carries (.of_step hstep) (hiter.carries hleave hbody)
    · rcases Behaviour.seq_inv hdone with ⟨cause', t', -, he⟩ | ⟨u, hmove, hiter⟩
      · cases he
      · rw [show s.moveBy settings entry = .done u from hmove] at hstep
        exact Reaches.carries (.of_step hstep)
          (Reaches.carries (hiter.carries hleave hbody) (ihRest hafter hrest))

/-! ## From the machine to structured runs -/

/-- If the run is over at some time after a test of a loop's cell, the rounds come to an end. Each
round takes at least the step of the jump at the loop's end, so what is left of the run gets
shorter. -/
theorem exists_iterates {n : Nest} {exit : Int} {inside k : Nat} {t : State}
    {cause : Option Fault} {m : Machine} (hinner : Placed code inside n.encode)
    (hleave : Placed code (inside + n.encode.length)
      (Op.jumpIfNotZero exit ((n.encode.length + 3 : Nat) : Int)).words)
    (hbody : ∀ s, Halts code settings (s.machine inside) cause m → ∃ r, n.Runs settings s r)
    (h : advance code settings k
      (t.machine (afterTest inside (inside + (n.encode.length + 3)) t)) = .halted cause m) :
    ∃ r, Iterates (round settings (n.Runs settings) exit) t r := by
  induction k using Nat.strongRecOn generalizing t with
  | ind k ih =>
  by_cases hcell : t.current = 0
  · exact ⟨_, .stop hcell⟩
  · rw [afterTest, if_neg hcell] at h
    obtain ⟨r, hr⟩ := hbody t ⟨k, h⟩
    cases r with
    | fault cause' u => exact ⟨_, .fail hcell (seq_fault hr)⟩
    | done u =>
      obtain ⟨j, hj⟩ := hr.carries hinner
      obtain ⟨hlt, hrest⟩ := lt_and_advance_sub hj h
      cases hmove : u.moveBy settings exit with
      | fault cause' v => exact ⟨_, .fail hcell (seq_done hr hmove)⟩
      | done v =>
        have hstep : (u.machine (inside + n.encode.length)).step code settings = _ :=
          step_leave u hleave (by omega)
        rw [hmove, Outcome.progress, ← advance_one] at hstep
        obtain ⟨hlt', hrest'⟩ := lt_and_advance_sub hstep hrest
        have hinside : inside + n.encode.length + 3 - (n.encode.length + 3) = inside := by omega
        rw [hinside, Nat.add_assoc inside] at hrest'
        obtain ⟨r, hr'⟩ := ih _ (by omega) hrest'
        exact ⟨r, .again hcell (seq_done hr hmove) hr'⟩

/-- **If the machine's run is over at some time, so is the structured run** of a nest whose words
the machine has come to. -/
theorem exists_runs_of_halts {n : Nest} {s : State} {cause : Option Fault} {m : Machine}
    (hplaced : Placed code address n.encode) (h : Halts code settings (s.machine address) cause m) :
    ∃ r, n.Runs settings s r := by
  induction n generalizing address s with
  | done => exact ⟨.done s, rfl⟩
  | act e o rest ih =>
    have hstep : (s.machine address).step code settings = _ := step_act s hplaced.left
    cases hrun : e.run settings o s with
    | fault cause' t => exact ⟨_, seq_fault hrun⟩
    | done t =>
      rw [hrun] at hstep
      obtain ⟨r, hr⟩ := ih hplaced.right ((Reaches.of_step hstep).halts_iff.mp h)
      exact ⟨r, seq_done hrun hr⟩
  | loop entry body exit rest ihBody ihRest =>
    obtain ⟨henter, hinner, hleave, hafter⟩ := placed_loop hplaced
    have hend : address + 3 + (body.encode.length + 3) ≤ code.size := by
      have := hleave.add_length_le
      simp only [Op.length_words] at this
      change address + 3 + body.encode.length + 3 ≤ code.size at this
      omega
    have hstep : (s.machine address).step code settings = _ := step_enter s henter hend
    cases hmove : s.moveBy settings entry with
    | fault cause' t => exact ⟨_, seq_fault (seq_fault hmove)⟩
    | done t =>
      rw [hmove] at hstep
      have htest := (Reaches.of_step hstep).halts_iff.mp h
      obtain ⟨k, hk⟩ := htest
      obtain ⟨mid, hiter⟩ := exists_iterates hinner hleave (fun s => ihBody hinner) hk
      cases mid with
      | fault cause' u => exact ⟨_, seq_fault (seq_done hmove hiter)⟩
      | done u =>
        have hout := hiter.carries hleave fun s r hrun => Runs.carries hinner hrun
        obtain ⟨r, hr⟩ := ihRest hafter (hout.halts_iff.mp ⟨k, hk⟩)
        exact ⟨r, seq_done (seq_done hmove hiter) hr⟩

end Nest

/-! ## Whole programs -/

/-- The state with which a run ends. -/
def Outcome.state : Outcome → State
  | .done s | .fault _ s => s

/-- The fault with which a run ends, if any. -/
def Outcome.cause : Outcome → Option Fault
  | .done _ => none
  | .fault cause _ => some cause

namespace Nest

/-- The machine's run of a whole nest is over as the structured run ends. -/
theorem Runs.halts {n : Nest} {s : State} {r : Outcome} (h : n.Runs settings s r) :
    ∃ address, Halts n.encode.toArray settings (s.machine 0) r.cause (r.state.machine address) := by
  have hcarries := h.carries (Placed.whole n.encode)
  cases r with
  | fault cause t => exact hcarries
  | done t =>
    have hend : Halts n.encode.toArray settings (t.machine (0 + n.encode.length)) none _ :=
      halts_at_end (by simp [State.machine])
    exact ⟨_, hcarries.halts_iff.mpr hend⟩

/-- A structured run that ends gives an execution of the nest's encoding. -/
theorem executes_of_runs {n : Nest} {streams : Streams} {r : Outcome}
    (h : n.Runs settings (.initial settings streams) r) :
    ∃ address, Executes n.encode settings streams ((r.state.machine address).finish r.cause).1
      ((r.state.machine address).finish r.cause).2 := by
  obtain ⟨address, hhalts⟩ := h.halts
  exact ⟨address, _, _, hhalts, rfl⟩

/-- An execution of a nest's encoding comes from a structured run. -/
theorem runs_of_executes {n : Nest} {streams : Streams} {fault : Option Fault} {m : Machine}
    (h : Executes n.encode settings streams fault m) :
    ∃ r address, n.Runs settings (.initial settings streams) r ∧
      (r.state.machine address).finish r.cause = (fault, m) := by
  obtain ⟨cause, last, hhalts, hfinish⟩ := h
  obtain ⟨r, hr⟩ :=
    exists_runs_of_halts (s := .initial settings streams) (Placed.whole n.encode) hhalts
  obtain ⟨address, hhalts'⟩ := hr.halts
  obtain ⟨rfl, rfl⟩ := hhalts.unique hhalts'
  exact ⟨r, address, hr, hfinish⟩

end Nest

end Tapecode
