import Tapecode.Proofs.Batches
import Tapecode.Proofs.Layout
import Tapecode.Proofs.Parsing

/-!
# The code of a source text implements the language

The code that a source text has without passes is run in step with the symbols themselves. Bytecode
has no moves: the machine's pointer stays where the last bracket has left it, and the pointer of the
language is ahead of it by the moves since then (`Language.Tracks`). A move is therefore no step of
the machine, and every other symbol is exactly one (`Language.Simulates.step`). Since there are only
finitely many moves in a row before a symbol that is no move or the end, one run is over if and only
if the other is.

`implements_language` puts this together with parsing and compiling. It also says that each of the two
runs comes beside every state that the other comes to (`Language.Beside`), which is what endless runs
have in common.
-/

namespace Tapecode

open Machine

namespace Language

/-! ## Agreement -/

/-- A state of the machine agrees with a state of the language on the tape, the number of steps, the
output and the input, when both began on `streams`. -/
structure Agrees (streams : Streams) (s : Snapshot) (t : State) : Prop where
  tape : t.tape = s.tape
  steps : t.steps = s.steps
  sent : t.console.sent = streams.accepted ++ s.output
  script : t.console.streams.reads = s.script
  reads : t.console.streams.readEvents = streams.readEvents ++ s.reads
  reliable : t.console.streams.Reliable

namespace Agrees

variable {streams : Streams} {s : Snapshot} {t : State}

theorem value_eq (h : Agrees streams s t) (i : Nat) : t.value i = s.value i := by
  rw [State.value, h.tape]
  rfl

theorem store (h : Agrees streams s t) (i : Nat) (v : UInt8) :
    Agrees streams (s.store i v) (t.store i v) :=
  ⟨congrArg (·.setIfInBounds i v) h.tape, h.steps, h.sent, h.script, h.reads, h.reliable⟩

/-- Positions and pointers are not compared. -/
theorem moved (h : Agrees streams s t) (position : Nat) (pointer : Int) (i : Nat) :
    Agrees streams { s with position, pointer } (t.movedTo i) :=
  ⟨h.tape, h.steps, h.sent, h.script, h.reads, h.reliable⟩

theorem counted (h : Agrees streams s t) :
    Agrees streams { s with steps := s.steps + 1 } t.counted :=
  ⟨h.tape, congrArg (· + 1) h.steps, h.sent, h.script, h.reads, h.reliable⟩

/-- Printing a cell. -/
theorem push (h : Agrees streams s t) (b : UInt8) :
    ∃ console, t.console.push b = (.ok (), console) ∧
      Agrees streams { s with output := s.output ++ [b] } { t with console } := by
  obtain ⟨c, hpush, hc, hsent, hreads, hevents⟩ := Console.push_of_reliable h.reliable b
  refine ⟨c, hpush, h.tape, h.steps, ?_, hreads.trans h.script, hevents.trans h.reads, hc⟩
  rw [hsent, h.sent, List.append_assoc]

/-- Reading a byte. -/
theorem readByte (h : Agrees streams s t) :
    ∃ console, t.console.readByte = ((Streams.serveRead s.script).result, console) ∧
      Agrees streams { s with
        script := (Streams.serveRead s.script).rest
        reads := s.reads ++ (Streams.serveRead s.script).events } { t with console } := by
  obtain ⟨c, hread, hc, hsent, hreads, hevents⟩ := Console.readByte_of_reliable h.reliable
  rw [h.script] at hread hreads hevents
  refine ⟨c, hread, h.tape, h.steps, hsent.trans h.sent, hreads, ?_, hc⟩
  rw [hevents, h.reads, List.append_assoc]

end Agrees

theorem byte_toInt_one : Word.byte (1 : Int8).toInt = 1 := by decide

theorem byte_toInt_neg_one : Word.byte (-1 : Int8).toInt = -1 := by decide

/-- The states `s'` and `t'` agree and differ from `s` and `t` in neither position nor pointer. -/
structure Follows (streams : Streams) (s : Snapshot) (t : State) (s' : Snapshot) (t' : State) :
    Prop where
  agrees : Agrees streams s' t'
  position : s'.position = s.position
  pointer : s'.pointer = s.pointer
  behind : t'.pointer = t.pointer
  size : t'.tape.size = t.tape.size

theorem Follows.store {streams : Streams} {s s' : Snapshot} {t t' : State}
    (h : Follows streams s t s' t') (i : Nat) (v : UInt8) :
    Follows streams s t (s'.store i v) (t'.store i v) where
  agrees := h.agrees.store i v
  position := h.position
  pointer := h.pointer
  behind := h.behind
  size := (Array.size_setIfInBounds ..).trans h.size

/-- **A symbol that is neither a move nor a bracket** does with a cell what its effect does. -/
theorem perform_act {streams : Streams} {s : Snapshot} {t : State} (h : Agrees streams s t)
    (symbols : List Symbol) (eof : EofPolicy) (i : Nat) {c : Symbol} {e : Effect}
    (hc : c.command = .act e) :
    (∃ s' t', s.perform symbols eof i c = s'.next ∧ e.perform eof t i = .done t' ∧
        Follows streams s t s' t') ∨
      ∃ cause s' t', s.perform symbols eof i c = .halted (some cause) s' ∧
        e.perform eof t i = .fault cause t' ∧ Agrees streams s' t' := by
  have hself : Follows streams s t s t := ⟨h, rfl, rfl, rfl, rfl⟩
  cases c with
  | left | right | loopStart | loopEnd => cases hc
  | increment =>
    obtain rfl := Command.act.inj hc
    refine .inl ⟨s.store i (s.value i + 1), t.store i (t.value i + Word.byte (1 : Int8).toInt),
      rfl, rfl, ?_⟩
    rw [h.value_eq, byte_toInt_one]
    exact hself.store i _
  | decrement =>
    obtain rfl := Command.act.inj hc
    refine .inl ⟨s.store i (s.value i - 1), t.store i (t.value i + Word.byte (-1 : Int8).toInt),
      rfl, rfl, ?_⟩
    rw [h.value_eq, byte_toInt_neg_one, ← UInt8.sub_eq_add_neg]
    exact hself.store i _
  | output =>
    obtain rfl := Command.act.inj hc
    obtain ⟨console, hpush, h'⟩ := h.push (t.value i)
    refine .inl ⟨{ s with output := s.output ++ [t.value i] }, { t with console }, ?_, ?_, h',
      rfl, rfl, rfl, rfl⟩
    · rw [h.value_eq]
      rfl
    · simp only [Effect.perform, hpush]
  | input =>
    obtain rfl := Command.act.inj hc
    obtain ⟨console, hread, h'⟩ := h.readByte
    have hread' : Follows streams s t _ { t with console } := ⟨h', rfl, rfl, rfl, rfl⟩
    simp only [Snapshot.perform, Snapshot.readInto, Effect.perform, hread]
    rcases (Streams.serveRead s.script).result with e | _ | b
    · exact .inr ⟨.io e, _, _, rfl, rfl, h'⟩
    · cases eof with
      | sentinel v => exact .inl ⟨_, _, rfl, rfl, hread'.store i v⟩
      | fail => exact .inr ⟨.inputExhausted, _, _, rfl, rfl, h'⟩
    · exact .inl ⟨_, _, rfl, rfl, hread'.store i b⟩

/-! ## Tracking -/

/-- The machine has come to the code behind the symbols `xs`. Its pointer is behind the language's
by the moves since the last bracket. -/
structure Tracks (settings : Settings) (streams : Streams) (xs : List Symbol) (s : Snapshot)
    (t : State) : Prop where
  position : s.position = xs.length
  pointer : s.pointer = t.pointer + drift 0 xs
  bound : t.pointer ≤ settings.tapeSize
  size : t.tape.size = settings.tapeSize
  agrees : Agrees streams s t

theorem Tracks.start {settings : Settings} {streams : Streams} (h : streams.Reliable) :
    Tracks settings streams [] (.start settings.tapeSize streams.reads)
      (.initial settings streams) where
  position := rfl
  pointer := rfl
  bound := Nat.zero_le _
  size := Array.size_replicate ..
  agrees :=
    { tape := rfl
      steps := rfl
      sent := by simp [State.initial, Snapshot.start, Console.sent]
      script := rfl
      reads := by simp [State.initial, Snapshot.start]
      reliable := h }

/-- A cell whose address fits in 64 bits is on the tape, or its own address is reported. -/
theorem locate_of_fits {size : Nat} {target : Int} (hleast : Word.least ≤ target)
    (hgreatest : target ≤ Word.greatest) :
    locate size target =
      if 0 ≤ target ∧ target < size then .ok target.toNat
      else .error (.tapeOutOfBounds target) := by
  rw [locate, Word.checked_eq_some_iff.mpr ⟨rfl, hleast, hgreatest⟩]

variable {settings : Settings} {streams : Streams} {xs : List Symbol} {s : Snapshot} {t : State}

/-- The machine finds the cell under the language's pointer, or reports that pointer. -/
theorem Tracks.visit (h : Tracks settings streams xs s t) (hlimit : settings.stepLimit = none)
    (hfits : ((settings.tapeSize + xs.length : Nat) : Int) ≤ Word.greatest)
    (use : State → Nat → Outcome) :
    t.visit settings (drift 0 xs) use =
      if 0 ≤ s.pointer ∧ s.pointer < s.tape.size then use t.counted s.pointer.toNat
      else .fault (.tapeOutOfBounds s.pointer) t.counted := by
  have hdrift := natAbs_drift_le 0 xs
  have hbound := h.bound
  have hmost : ((settings.tapeSize + xs.length : Nat) : Int) ≤ 9223372036854775807 := hfits
  have hlow : -9223372036854775808 ≤ s.pointer := by
    rw [h.pointer]
    omega
  have hhigh : s.pointer ≤ 9223372036854775807 := by
    rw [h.pointer]
    omega
  have hcut : settings.cutOff? t.steps = none := by rw [Settings.cutOff?, hlimit]
  rw [State.visit, hcut, ← h.pointer, locate_of_fits hlow hhigh, h.agrees.tape]
  by_cases hin : 0 ≤ s.pointer ∧ s.pointer < s.tape.size
  · simp only [if_pos hin]
  · simp only [if_neg hin]

/-! ## One symbol -/

/-- The machine has come to the code of the symbols that are left. -/
def Simulates (settings : Settings) (streams : Streams) (symbols : List Symbol) (s : Snapshot)
    (m : Machine) : Prop :=
  ∃ xs t, xs <+: symbols ∧ Tracks settings streams xs s t ∧ m = t.machine (plain 0 xs).width

/-- Both go on, or both are over with the same fault. -/
def InStep (settings : Settings) (streams : Streams) (symbols : List Symbol) :
    Status → Progress → Prop
  | .running s, .running m => Simulates settings streams symbols s m
  | .halted fault s, .halted fault' m =>
    fault' = fault ∧ ∃ t address, m = State.machine t address ∧ Agrees streams s t
  | .running _, .halted _ _ | .halted _ _, .running _ => False

theorem InStep.cases {symbols : List Symbol} {status : Status} {progress : Progress}
    (h : InStep settings streams symbols status progress) :
    (∃ s m, status = .running s ∧ progress = .running m ∧
        Simulates settings streams symbols s m) ∨
      ∃ fault s t address, status = .halted fault s ∧
        progress = .halted fault (State.machine t address) ∧ Agrees streams s t := by
  cases status with
  | running s =>
    cases progress with
    | running m => exact .inl ⟨s, m, rfl, rfl, h⟩
    | halted fault m => exact h.elim
  | halted fault s =>
    cases progress with
    | running m => exact h.elim
    | halted fault' m =>
      obtain ⟨rfl, t, address, rfl, hagrees⟩ := h
      exact .inr ⟨fault', s, t, address, rfl, rfl, hagrees⟩

theorem getElem?_of_cut (xs : List Symbol) (c : Symbol) (ys : List Symbol) :
    (xs ++ c :: ys)[xs.length]? = some c := by
  simp

/-- Every symbol that is not a move needs the pointer to be on the tape. -/
theorem Snapshot.step_of_not_move {symbols : List Symbol} {eof : EofPolicy} {c : Symbol}
    (h : symbols[s.position]? = some c) (hc : ∀ distance, c.command ≠ .move distance) :
    s.step symbols eof =
      if 0 ≤ s.pointer ∧ s.pointer < s.tape.size then
        { s with steps := s.steps + 1 }.perform symbols eof s.pointer.toNat c
      else .halted (some (.tapeOutOfBounds s.pointer)) { s with steps := s.steps + 1 } := by
  cases c with
  | left => exact absurd rfl (hc (-1))
  | right => exact absurd rfl (hc 1)
  | increment | decrement | input | output | loopStart | loopEnd => simp only [Snapshot.step, h]

namespace Tracks

variable {ys : List Symbol} {n : Nest}

/-- A move is no step of the machine. -/
theorem step_move (h : Tracks settings streams xs s t) {c : Symbol} {distance : Int}
    (hc : c.command = .move distance) :
    ∃ s', s.step (xs ++ c :: ys) settings.eof = .running s' ∧
      Tracks settings streams (xs ++ [c]) s' t ∧ plain 0 (xs ++ [c]) = plain 0 xs := by
  have hget : (xs ++ c :: ys)[s.position]? = some c := by
    rw [h.position]
    exact getElem?_of_cut xs c ys
  have hplain : plain 0 (xs ++ [c]) = plain 0 xs := by
    rw [plain_append, plain, hc]
    exact List.append_nil _
  have hdrift : drift 0 (xs ++ [c]) = drift 0 xs + distance := by
    rw [drift_append, drift, hc]
    rfl
  have hstep : s.step (xs ++ c :: ys) settings.eof =
      .running { s with pointer := s.pointer + distance, position := s.position + 1 } := by
    cases c with
    | left =>
      obtain rfl := Command.move.inj hc
      simp only [Snapshot.step, hget, Snapshot.next, Snapshot.goTo, Int.sub_eq_add_neg]
    | right =>
      obtain rfl := Command.move.inj hc
      simp only [Snapshot.step, hget, Snapshot.next, Snapshot.goTo]
    | increment | decrement | input | output | loopStart | loopEnd => cases hc
  refine ⟨_, hstep, ?_, hplain⟩
  exact
    { position := by simp [h.position]
      pointer := by
        rw [hdrift, h.pointer]
        exact Int.add_assoc ..
      bound := h.bound
      size := h.size
      agrees := h.agrees.moved _ _ t.pointer }

/-- After an effect the machine is at the code of the next symbol. -/
theorem follow (h : Tracks settings streams xs s t) {c : Symbol} {e : Effect}
    (hc : c.command = .act e) {s' : Snapshot} {t' : State}
    (hf : Follows streams { s with steps := s.steps + 1 } t.counted s' t') :
    Tracks settings streams (xs ++ [c]) { s' with position := s'.position + 1 } t' where
  position := by simp [hf.position, h.position]
  pointer := by
    have hdrift : drift 0 (xs ++ [c]) = drift 0 xs := by
      rw [drift_append, drift, hc]
      rfl
    rw [hdrift, hf.behind]
    exact hf.pointer.trans h.pointer
  bound := by
    rw [hf.behind]
    exact h.bound
  size := hf.size.trans h.size
  agrees := hf.agrees.moved _ _ t'.pointer

/-- After a bracket the machine's pointer has caught up with the language's. -/
theorem catchUp (h : Tracks settings streams xs s t)
    (hin : 0 ≤ s.pointer ∧ s.pointer < s.tape.size) {xs' : List Symbol} (hdrift : drift 0 xs' = 0) :
    Tracks settings streams xs' { s with steps := s.steps + 1, position := xs'.length }
      (t.counted.movedTo s.pointer.toNat) where
  position := rfl
  pointer := by
    rw [hdrift]
    change s.pointer = (s.pointer.toNat : Int) + 0
    omega
  bound := by
    have hsize : s.tape.size = settings.tapeSize := by rw [← h.agrees.tape, h.size]
    change s.pointer.toNat ≤ settings.tapeSize
    omega
  size := h.size
  agrees := h.agrees.counted.moved _ _ _

theorem step_act (h : Tracks settings streams xs s t) (hlimit : settings.stepLimit = none)
    (hfits : ((settings.tapeSize + xs.length : Nat) : Int) ≤ Word.greatest) {c : Symbol}
    {e : Effect} (hc : c.command = .act e) (hn : n.program = plain 0 (xs ++ c :: ys)) :
    InStep settings streams (xs ++ c :: ys) (s.step (xs ++ c :: ys) settings.eof)
      ((t.machine (plain 0 xs).width).step n.encode.toArray settings) := by
  have hsplit : n.program = plain 0 xs ++ .act e (drift 0 xs) :: plain (drift 0 xs) ys := by
    rw [hn, plain_append, plain, hc]
    rfl
  have hplain : plain 0 (xs ++ [c]) = plain 0 xs ++ [.act e (drift 0 xs)] := by
    rw [plain_append, plain, hc]
    rfl
  have hget : (xs ++ c :: ys)[s.position]? = some c := by
    rw [h.position]
    exact getElem?_of_cut xs c ys
  rw [n.step_act t hsplit, Effect.run, h.visit hlimit hfits,
    Snapshot.step_of_not_move hget (by simp [hc])]
  by_cases hin : 0 ≤ s.pointer ∧ s.pointer < s.tape.size
  · rw [if_pos hin, if_pos hin]
    rcases perform_act h.agrees.counted (xs ++ c :: ys) settings.eof s.pointer.toNat hc with
      ⟨s', t', hs', ht', hf⟩ | ⟨cause, s', t', hs', ht', ha⟩
    · rw [hs', ht']
      exact ⟨xs ++ [c], t', ⟨ys, by simp⟩, h.follow hc hf, by rw [hplain]⟩
    · rw [hs', ht']
      exact ⟨rfl, t', _, rfl, ha⟩
  · rw [if_neg hin, if_neg hin]
    exact ⟨rfl, t.counted, _, rfl, h.agrees.counted⟩

/-- **A bracket tests the cell under the pointer** and goes on behind one of two lists of symbols,
both of which end with a bracket. -/
theorem branch (h : Tracks settings streams xs s t) (hlimit : settings.stepLimit = none)
    (hfits : ((settings.tapeSize + xs.length : Nat) : Int) ≤ Word.greatest)
    {symbols inside outside : List Symbol} (hinside : inside <+: symbols)
    (houtside : outside <+: symbols) (hdrift : drift 0 inside = 0)
    (hdrift' : drift 0 outside = 0) {c : Symbol} (hget : symbols[s.position]? = some c)
    (hc : ∀ distance, c.command ≠ .move distance)
    (hperform : ∀ (s' : Snapshot) (i : Nat), s'.position = s.position →
      s'.perform symbols settings.eof i c =
        s'.goTo (if s'.value i = 0 then outside.length else inside.length))
    (here : Nat) :
    InStep settings streams symbols (s.step symbols settings.eof)
      ((t.moveBy settings (drift 0 xs)).progress here
        (afterTest (plain 0 inside).width (plain 0 outside).width)) := by
  rw [State.moveBy, h.visit hlimit hfits, Snapshot.step_of_not_move hget hc]
  by_cases hin : 0 ≤ s.pointer ∧ s.pointer < s.tape.size
  · rw [if_pos hin, if_pos hin, hperform { s with steps := s.steps + 1 } _ rfl]
    have hvalue := h.agrees.counted.value_eq s.pointer.toNat
    simp only [Outcome.progress, afterTest, State.current_movedTo, hvalue]
    by_cases hzero : ({ s with steps := s.steps + 1 } : Snapshot).value s.pointer.toNat = 0
    · rw [if_pos hzero, if_pos hzero]
      exact ⟨outside, _, houtside, h.catchUp hin hdrift', rfl⟩
    · rw [if_neg hzero, if_neg hzero]
      exact ⟨inside, _, hinside, h.catchUp hin hdrift, rfl⟩
  · rw [if_neg hin, if_neg hin]
    exact ⟨rfl, t.counted, _, rfl, h.agrees.counted⟩

theorem step_loopStart (h : Tracks settings streams xs s t) (hlimit : settings.stepLimit = none)
    (hfits : ((settings.tapeSize + xs.length : Nat) : Int) ≤ Word.greatest)
    (hn : n.program = plain 0 (xs ++ .loopStart :: ys)) :
    InStep settings streams (xs ++ .loopStart :: ys)
      (s.step (xs ++ .loopStart :: ys) settings.eof)
      ((t.machine (plain 0 xs).width).step n.encode.toArray settings) := by
  have hsplit : n.program = plain 0 xs ++ .enter (drift 0 xs) :: plain 0 ys := by
    rw [hn, plain_append]
    rfl
  have hget : (xs ++ .loopStart :: ys)[s.position]? = some .loopStart := by
    rw [h.position]
    exact getElem?_of_cut xs .loopStart ys
  -- the body of the loop in the code is the body of the loop in the symbols
  obtain ⟨body, exit, rest, ⟨b, hb⟩, hafter, hstep⟩ := n.step_enter settings hsplit
  obtain ⟨us, c, vs, rfl, hus, hc, -⟩ := exists_cut hafter
  obtain rfl := eq_of_instruction?_leave hc
  have hmatched : Matched us := .of_plain (hus.trans hb.symm)
  have hexit : drift 0 us = exit := by simpa [Symbol.command, Builder.instruction?] using hc
  have hinside : plain 0 (xs ++ [.loopStart]) = plain 0 xs ++ [.enter (drift 0 xs)] := by
    rw [plain_append]
    rfl
  have houtside : plain 0 (xs ++ .loopStart :: (us ++ [.loopEnd])) =
      plain 0 xs ++ .enter (drift 0 xs) :: (body ++ [.leave exit]) := by
    rw [plain_append, ← hus, ← hexit]
    change plain 0 xs ++ .enter (drift 0 xs) :: plain 0 (us ++ [.loopEnd]) = _
    rw [plain_append]
    rfl
  have hdrift : drift 0 (xs ++ .loopStart :: (us ++ [.loopEnd])) = 0 := by
    rw [drift_append, drift, drift_append]
    rfl
  have hpartner : partner .loopStart .loopEnd 0
      ((xs ++ .loopStart :: (us ++ .loopEnd :: vs)).drop (s.position + 1)) = us.length + 1 := by
    rw [h.position, ← List.drop_drop, List.drop_left]
    exact partner_of_neutral hmatched.forth vs
  rw [hstep, ← hinside, ← houtside]
  refine h.branch hlimit hfits ⟨us ++ .loopEnd :: vs, by simp⟩ ⟨vs, by simp⟩
    (drift_append 0 xs [.loopStart]) hdrift hget (by simp [Symbol.command]) ?_ _
  intro s' i hposition
  have hlength : s.position + 1 + (us.length + 1) =
      (xs ++ Symbol.loopStart :: (us ++ [.loopEnd])).length := by
    simp [h.position]
    omega
  have hlength' : s.position + 1 = (xs ++ [Symbol.loopStart]).length := by simp [h.position]
  rw [Snapshot.perform_loopStart, hposition, hpartner, hlength, hlength']

theorem step_loopEnd (h : Tracks settings streams xs s t) (hlimit : settings.stepLimit = none)
    (hfits : ((settings.tapeSize + xs.length : Nat) : Int) ≤ Word.greatest)
    (hn : n.program = plain 0 (xs ++ .loopEnd :: ys)) :
    InStep settings streams (xs ++ .loopEnd :: ys) (s.step (xs ++ .loopEnd :: ys) settings.eof)
      ((t.machine (plain 0 xs).width).step n.encode.toArray settings) := by
  have hsplit : n.program = plain 0 xs ++ .leave (drift 0 xs) :: plain 0 ys := by
    rw [hn, plain_append]
    rfl
  have hget : (xs ++ .loopEnd :: ys)[s.position]? = some .loopEnd := by
    rw [h.position]
    exact getElem?_of_cut xs .loopEnd ys
  have houtside : plain 0 (xs ++ [.loopEnd]) = plain 0 xs ++ [.leave (drift 0 xs)] := by
    rw [plain_append]
    rfl
  obtain ⟨outer, entry, body, ⟨b, hb⟩, hbefore, hstep⟩ := n.step_leave settings hsplit
  -- the symbols of the loop's body end just before this one
  obtain ⟨us, c, vs, hxs, hus, hc, hvs⟩ := exists_cut hbefore
  obtain rfl := eq_of_instruction?_enter hc
  have hmatched : Matched vs := .of_plain (hvs.trans hb.symm)
  have hentry : drift 0 us = entry := by simpa [Symbol.command, Builder.instruction?] using hc
  have hinside : plain 0 (us ++ [.loopStart]) = outer ++ [.enter entry] := by
    rw [plain_append, hus, ← hentry]
    rfl
  have hpartner : partner .loopEnd .loopStart 0
      ((xs ++ .loopEnd :: ys).take s.position).reverse = vs.length + 1 := by
    have hreverse : xs.reverse = vs.reverse ++ .loopStart :: us.reverse := by simp [hxs]
    have hlength := partner_of_neutral hmatched.back us.reverse
    rw [h.position, List.take_left, hreverse, hlength, List.length_reverse]
  rw [hstep, ← houtside, ← hinside]
  refine h.branch hlimit hfits ⟨vs ++ .loopEnd :: ys, by simp [hxs]⟩ ⟨ys, by simp⟩
    (drift_append 0 us [.loopStart]) (drift_append 0 xs [.loopEnd]) hget
    (by simp [Symbol.command]) ?_ _
  intro s' i hposition
  have hlength : s.position + 1 - (vs.length + 1) = (us ++ [Symbol.loopStart]).length := by
    simp [h.position, hxs]
    omega
  have hlength' : s.position + 1 = (xs ++ [Symbol.loopEnd]).length := by simp [h.position]
  rw [Snapshot.perform_loopEnd, hposition, hpartner, hlength, hlength']

end Tracks

/-! ## Whole runs -/

namespace Simulates

variable {symbols : List Symbol} {m : Machine} {n : Nest}

variable (hn : n.program = plain 0 symbols) (hlimit : settings.stepLimit = none)
  (hfits : ((settings.tapeSize + symbols.length : Nat) : Int) ≤ Word.greatest)

include hn hlimit hfits

/-- **A symbol is a move**, of which only finitely many are left, **or one step of the machine**. -/
theorem step (h : Simulates settings streams symbols s m) :
    (∃ s', s.step symbols settings.eof = .running s' ∧ Simulates settings streams symbols s' m ∧
        symbols.length - s'.position < symbols.length - s.position) ∨
      InStep settings streams symbols (s.step symbols settings.eof)
        (m.step n.encode.toArray settings) := by
  obtain ⟨xs, t, ⟨ys, rfl⟩, htracks, rfl⟩ := h
  have hfits' : ((settings.tapeSize + xs.length : Nat) : Int) ≤ Word.greatest := by
    refine Int.le_trans ?_ hfits
    simp only [List.length_append]
    omega
  cases ys with
  | nil =>
    rw [List.append_nil] at hn ⊢
    have hend : xs[s.position]? = none := by simp [htracks.position]
    rw [n.step_end _ (by rw [hn]; rfl), Snapshot.step, hend]
    exact .inr ⟨rfl, t, _, rfl, htracks.agrees⟩
  | cons c ys =>
    have hmove (distance : Int) (hc : c.command = .move distance) :
        ∃ s', s.step (xs ++ c :: ys) settings.eof = .running s' ∧
          Simulates settings streams (xs ++ c :: ys) s' (t.machine (plain 0 xs).width) ∧
          (xs ++ c :: ys).length - s'.position < (xs ++ c :: ys).length - s.position := by
      obtain ⟨s', hstep, htracks', hplain⟩ := htracks.step_move hc
      refine ⟨s', hstep, ⟨xs ++ [c], t, ⟨ys, by simp⟩, htracks', by rw [hplain]⟩, ?_⟩
      rw [htracks.position, htracks'.position]
      simp
      omega
    cases c with
    | left => exact .inl (hmove (-1) rfl)
    | right => exact .inl (hmove 1 rfl)
    | increment | decrement | input | output =>
      exact .inr (htracks.step_act hlimit hfits' rfl hn)
    | loopStart => exact .inr (htracks.step_loopStart hlimit hfits' hn)
    | loopEnd => exact .inr (htracks.step_loopEnd hlimit hfits' hn)

/-- The machine waits while the moves before its next instruction are made. -/
theorem exists_inStep (h : Simulates settings streams symbols s m) :
    ∃ s', Reaches symbols settings.eof s s' ∧
      InStep settings streams symbols (s'.step symbols settings.eof)
        (m.step n.encode.toArray settings) := by
  induction hrank : symbols.length - s.position using Nat.strongRecOn generalizing s with
  | ind rank ih =>
    rcases h.step hn hlimit hfits with ⟨s₁, hs, h₁, hless⟩ | hstep
    · obtain ⟨s', hs', hstep⟩ := ih _ (hrank ▸ hless) h₁ rfl
      exact ⟨s', hs'.head hs, hstep⟩
    · exact ⟨s, .refl s, hstep⟩

/-- To whatever state the run of the symbols comes, the run of the machine comes beside it. -/
theorem machine_reaches (h : Simulates settings streams symbols s m) {s' : Snapshot}
    (hreaches : Reaches symbols settings.eof s s') :
    ∃ m', Machine.Reaches n.encode.toArray settings m m' ∧
      Simulates settings streams symbols s' m' := by
  obtain ⟨k, hk⟩ := hreaches
  induction k generalizing s m with
  | zero =>
    obtain rfl := Status.running.inj hk
    exact ⟨m, .refl m, h⟩
  | succ k ih =>
    rw [advance] at hk
    rcases h.step hn hlimit hfits with ⟨s₁, hs, h₁, -⟩ | hstep
    · rw [hs] at hk
      exact ih h₁ hk
    · rcases hstep.cases with ⟨s₁, m₁, hs, hm, h₁⟩ | ⟨fault, e, t, address, hs, -⟩
      · rw [hs] at hk
        obtain ⟨m', hm', h'⟩ := ih h₁ hk
        exact ⟨m', (Reaches.of_step hm).trans hm', h'⟩
      · rw [hs] at hk
        cases hk

/-- To whatever state the run of the machine comes, the run of the symbols comes beside it. -/
theorem language_reaches (h : Simulates settings streams symbols s m) {m' : Machine}
    (hreaches : Machine.Reaches n.encode.toArray settings m m') :
    ∃ s', Reaches symbols settings.eof s s' ∧ Simulates settings streams symbols s' m' := by
  obtain ⟨k, hk⟩ := hreaches
  induction k generalizing s m with
  | zero =>
    obtain rfl := Progress.running.inj hk
    exact ⟨s, .refl s, h⟩
  | succ k ih =>
    obtain ⟨s₀, hs₀, hstep⟩ := h.exists_inStep hn hlimit hfits
    rw [Machine.advance] at hk
    rcases hstep.cases with ⟨s₁, m₁, hs, hm, h₁⟩ | ⟨fault, e, t, address, -, hm, -⟩
    · rw [hm] at hk
      obtain ⟨s', hs', h'⟩ := ih h₁ hk
      exact ⟨s', hs₀.trans (hs'.head hs), h'⟩
    · rw [hm] at hk
      cases hk

/-- If the run of the symbols is over, so is the run of the machine. -/
theorem machine_halts (h : Simulates settings streams symbols s m) {fault : Option Fault}
    {e : Snapshot} (hhalts : Halts symbols settings.eof s fault e) :
    ∃ t address, Machine.Halts n.encode.toArray settings m fault (State.machine t address) ∧
      Agrees streams e t := by
  obtain ⟨s', hs', hlast⟩ := halts_iff_exists_last.mp hhalts
  obtain ⟨m', hm', h'⟩ := h.machine_reaches hn hlimit hfits hs'
  rcases h'.step hn hlimit hfits with ⟨s₁, hs, -⟩ | hstep
  · rw [hlast] at hs
    cases hs
  · rcases hstep.cases with ⟨s₁, m₁, hs, -⟩ | ⟨fault', e', t, address, hs, hm, hagrees⟩
    · rw [hlast] at hs
      cases hs
    · rw [hlast] at hs
      obtain ⟨rfl, rfl⟩ := Status.halted.inj hs
      exact ⟨t, address, hm'.halts_iff.mpr (.of_step hm), hagrees⟩

/-- If the run of the machine is over, so is the run of the symbols. -/
theorem language_halts (h : Simulates settings streams symbols s m) {fault : Option Fault}
    {last : Machine} (hhalts : Machine.Halts n.encode.toArray settings m fault last) :
    ∃ e, Halts symbols settings.eof s fault e := by
  obtain ⟨m', hm', hlast⟩ := hhalts.exists_last
  obtain ⟨s', hs', h'⟩ := h.language_reaches hn hlimit hfits hm'
  obtain ⟨s₀, hs₀, hstep⟩ := h'.exists_inStep hn hlimit hfits
  rcases hstep.cases with ⟨s₁, m₁, -, hm, -⟩ | ⟨fault', e, t, address, hs, hm, -⟩
  · rw [hlast] at hm
    cases hm
  · rw [hlast] at hm
    obtain ⟨rfl, -⟩ := Progress.halted.inj hm
    exact ⟨e, halts_iff_exists_last.mpr ⟨s₀, hs'.trans hs₀, hs⟩⟩

end Simulates

/-! ## Results -/

/-- A machine that began on `streams` is on its way beside a run of the symbols. Tape, number of
steps and reads are the same. What the run has printed is what the sink has accepted since, followed
by what is pending, which is never more than the threshold allows. -/
structure Beside (settings : Settings) (streams : Streams) (s : Snapshot) (m : Machine) : Prop where
  tape : m.tape = s.tape
  steps : m.steps = s.steps
  output : m.console.streams.accepted ++ m.console.pending.toList = streams.accepted ++ s.output
  pending : m.console.pending.size ≤ settings.flushThreshold
  reads : m.console.streams.readEvents = streams.readEvents ++ s.reads

theorem Simulates.beside {symbols : List Symbol} {m : Machine}
    (h : Simulates settings streams symbols s m)
    (hsteady : m.console.Steady settings.flushThreshold) : Beside settings streams s m := by
  obtain ⟨xs, t, -, htracks, rfl⟩ := h
  exact
    { tape := htracks.agrees.tape
      steps := htracks.agrees.steps
      output := htracks.agrees.sent
      pending := hsteady.pending
      reads := htracks.agrees.reads }

/-- A run of the symbols and an execution that began on `streams` come to the same tape, the same
number of steps, the same output and the same reads. -/
structure SameResult (streams : Streams) (s : Snapshot) (m : Machine) : Prop where
  tape : m.tape = s.tape
  steps : m.steps = s.steps
  output : m.console.streams.accepted = streams.accepted ++ s.output
  reads : m.console.streams.readEvents = streams.readEvents ++ s.reads

/-- The last write delivers the rest of the output and reports what the run reports. -/
theorem Agrees.finish (h : Agrees streams s t) (address : Nat) (fault : Option Fault) :
    ∃ m, (t.machine address).finish fault = (fault, m) ∧ SameResult streams s m := by
  obtain ⟨c, hflush, -, haccepted, -, -, hevents⟩ := Console.flush_of_reliable h.reliable
  have hflush' : (t.machine address).console.flush = (.ok (), c) := hflush
  refine ⟨{ t.machine address with console := c }, by simp only [Machine.finish, hflush'], ?_⟩
  exact ⟨h.tape, h.steps, haccepted.trans h.sent, hevents.trans h.reads⟩

end Language

/-- **The code of a source text implements the language.** Without passes, a source text with
balanced brackets parses and compiles. On a sink that does not fail and without a step limit, an
execution of its code ends as the run of its symbols does, with the same fault, tape, number of
steps, output and reads, or both run for ever. In either case each of the two comes beside every
state that the other comes to, so that an endless run prints and reads the same as well. Sums of
offsets are assumed to fit in 64 bits. -/
theorem implements_language {source : List UInt8} {settings : Settings} {streams : Streams}
    (hbalanced : Language.Balanced (symbolsOf source)) (hsink : streams.Reliable)
    (hlimit : settings.stepLimit = none)
    (hfits : ((settings.tapeSize + source.length : Nat) : Int) ≤ Word.greatest) :
    ∃ program ws code, parse .off source = .ok (program, ws) ∧ program.compile = .ok code ∧
      (∀ fault s, Language.Halts (symbolsOf source) settings.eof
          (.start settings.tapeSize streams.reads) fault s →
        ∃ m, Executes code settings streams fault m ∧ Language.SameResult streams s m) ∧
      (∀ fault m, Executes code settings streams fault m →
        ∃ s, Language.Halts (symbolsOf source) settings.eof
          (.start settings.tapeSize streams.reads) fault s ∧ Language.SameResult streams s m) ∧
      (Language.RunsForever (symbolsOf source) settings.eof
        (.start settings.tapeSize streams.reads) ↔
        Machine.RunsForever code.toArray settings (.load settings streams)) ∧
      (∀ s, Language.Reaches (symbolsOf source) settings.eof
          (.start settings.tapeSize streams.reads) s →
        ∃ m, Machine.Reaches code.toArray settings (.load settings streams) m ∧
          Language.Beside settings streams s m) ∧
      ∀ m, Machine.Reaches code.toArray settings (.load settings streams) m →
        ∃ s, Language.Reaches (symbolsOf source) settings.eof
          (.start settings.tapeSize streams.reads) s ∧ Language.Beside settings streams s m := by
  obtain ⟨ws, hparse⟩ := parse_off_of_balanced hbalanced
  obtain ⟨program, ws', -, ⟨n, hn⟩, -⟩ := parse_of_parse_off .off hparse
  have hfits' : ((settings.tapeSize + (symbolsOf source).length : Nat) : Int) ≤ Word.greatest := by
    have hlength : (symbolsOf source).length ≤ source.length := List.length_filterMap_le ..
    refine Int.le_trans ?_ hfits
    omega
  have hstart : Language.Simulates settings streams (symbolsOf source)
      (.start settings.tapeSize streams.reads) (.load settings streams) :=
    ⟨[], .initial settings streams, List.nil_prefix, .start hsink, rfl⟩
  have hsteady := Machine.steady_load settings hsink
  have hforth : ∀ fault s, Language.Halts (symbolsOf source) settings.eof
      (.start settings.tapeSize streams.reads) fault s →
      ∃ m, Executes n.encode settings streams fault m ∧ Language.SameResult streams s m := by
    intro fault s hhalts
    obtain ⟨t, address, hmachine, hagrees⟩ := hstart.machine_halts hn hlimit hfits' hhalts
    obtain ⟨m, hfinish, hresult⟩ := hagrees.finish address fault
    exact ⟨m, ⟨fault, _, hmachine, hfinish⟩, hresult⟩
  refine ⟨_, ws, n.encode, hparse, by rw [← hn, n.compile_program], hforth, ?_, ?_, ?_, ?_⟩
  · intro fault m hexec
    obtain ⟨cause, last, hmachine, -⟩ := id hexec
    obtain ⟨s, hhalts⟩ := hstart.language_halts hn hlimit hfits' hmachine
    obtain ⟨m', hexec', hresult⟩ := hforth cause s hhalts
    obtain ⟨rfl, rfl⟩ := hexec.unique hexec'
    exact ⟨s, hhalts, hresult⟩
  · rw [Language.runsForever_iff, Machine.runsForever_iff, not_iff_not]
    constructor
    · rintro ⟨fault, s, hhalts⟩
      obtain ⟨t, address, hmachine, -⟩ := hstart.machine_halts hn hlimit hfits' hhalts
      exact ⟨fault, _, hmachine⟩
    · rintro ⟨fault, last, hmachine⟩
      obtain ⟨s, hhalts⟩ := hstart.language_halts hn hlimit hfits' hmachine
      exact ⟨fault, s, hhalts⟩
  · intro s hreaches
    obtain ⟨m, hm, h⟩ := hstart.machine_reaches hn hlimit hfits' hreaches
    exact ⟨m, hm, h.beside (Machine.steady_of_reaches hsteady hm)⟩
  · intro m hreaches
    obtain ⟨s, hs, h⟩ := hstart.language_reaches hn hlimit hfits' hreaches
    exact ⟨s, hs, h.beside (Machine.steady_of_reaches hsteady hreaches)⟩

/-- The source text `,[.-]` prints the numbers from its input down to one. The source text `+[.]` runs
for ever, and without a buffer its code has delivered two bytes after the first five symbols. -/
theorem implements_language_of_countdown :
    (∃ program ws code m, parse .off ([.input, .loopStart, .output, .decrement,
          .loopEnd].map Symbol.byte) = .ok (program, ws) ∧
        program.compile = .ok code ∧
        Executes code { tapeSize := 1 } { reads := [.byte 2] } none m ∧
        m.tape = #[0] ∧ m.steps = 8 ∧ m.console.streams.accepted = [2, 1]) ∧
      ∃ program ws code m, parse .off ([.increment, .loopStart, .output,
          .loopEnd].map Symbol.byte) = .ok (program, ws) ∧
        program.compile = .ok code ∧
        Machine.Reaches code.toArray { tapeSize := 1, flushThreshold := 0 }
          (.load { tapeSize := 1, flushThreshold := 0 } {}) m ∧
        m.steps = 5 ∧ m.console.streams.accepted = [1, 1] := by
  constructor
  · obtain ⟨program, ws, code, hparse, hcode, hforth, -⟩ :=
      @implements_language ([.input, .loopStart, .output, .decrement, .loopEnd].map Symbol.byte)
        { tapeSize := 1 } { reads := [.byte 2] } (by decide) ⟨by decide, by decide⟩ rfl (by decide)
    obtain ⟨m, hexec, hresult⟩ := hforth none _ ⟨9, rfl⟩
    exact ⟨program, ws, code, m, hparse, hcode, hexec, hresult.tape, hresult.steps, hresult.output⟩
  · obtain ⟨program, ws, code, hparse, hcode, -, -, -, hbeside, -⟩ :=
      @implements_language ([.increment, .loopStart, .output, .loopEnd].map Symbol.byte)
        { tapeSize := 1, flushThreshold := 0 } {} (by decide) ⟨by decide, by decide⟩ rfl
        (by decide)
    obtain ⟨m, hreaches, hm⟩ := hbeside _ ⟨5, rfl⟩
    have hnone : m.console.pending = #[] := Array.eq_empty_of_size_eq_zero (Nat.le_zero.mp hm.pending)
    have houtput : m.console.streams.accepted ++ m.console.pending.toList = [1, 1] := hm.output
    rw [hnone, List.append_nil] at houtput
    exact ⟨program, ws, code, m, hparse, hcode, hreaches, hm.steps, houtput⟩

end Tapecode
