import Tapecode.Optimize
import Tapecode.Proofs.Balance

/-!
# Building and replaying

What a builder does with a command that it takes is said once (`Builder.call_inv`). A builder that
simplifies nothing writes down one instruction for each command that is not a move
(`Builder.call_off`). Replaying these instructions through a builder with some passes comes to the
same builder as giving it the commands themselves (`Builder.InStep.call`): the base of the replay
and the offset of the plain builder add up to the offset of the other. So optimising a program while
it is built is the same as optimising it afterwards (`Builder.InStep.optimize`).

All this holds in either `Arithmetic`. With sums that wrap the two offsets still add up, because
addition modulo `2 ^ 64` is associative too (`Arithmetic.add_assoc`).
-/

namespace Tapecode

/-- What a builder holds after an effect, if it held `recent` before. -/
def Passes.emit (passes : Passes) (e : Effect) (o : Int) (recent : List Instruction) :
    List Instruction :=
  match e with
  | .change d => passes.emitChange d o recent
  | .set v => passes.emitStore (.set v) o recent
  | .input => passes.emitStore .input o recent
  | .output => .act .output o :: recent

theorem Passes.emit_off (e : Effect) (o : Int) (recent : List Instruction) :
    Passes.off.emit e o recent = .act e o :: recent := by
  cases e with
  | change d => cases recent <;> rfl
  | set v => rfl
  | input => rfl
  | output => rfl

namespace Builder

/-! ## Replays -/

/-- Replays a program whose offsets count from `base`, and gives the base after it. -/
def replays (b : Builder) (base : Int) (p : Program) (arithmetic : Arithmetic := .exact) :
    Except BuildError (Int × Builder) :=
  match p with
  | [] => .ok (base, b)
  | i :: rest =>
    match b.replay base i arithmetic with
    | (.ok base, b) => b.replays base rest arithmetic
    | (.error e, _) => .error e

variable {a : Arithmetic}

theorem replays_append (b : Builder) (base : Int) (p q : Program) :
    b.replays base (p ++ q) a =
      match b.replays base p a with
      | .ok (base', b') => b'.replays base' q a
      | .error e => .error e := by
  induction p generalizing b base with
  | nil => rfl
  | cons i rest ih =>
    rw [List.cons_append, replays, replays]
    rcases b.replay base i a with ⟨_ | base', b'⟩
    · rfl
    · exact ih b' base'

theorem replayAll_eq (b : Builder) (base : Int) (p : Program) :
    b.replayAll base p a =
      match b.replays base p a with
      | .ok (_, b') => b'.finalize.1
      | .error e => .error e := by
  induction p generalizing b base with
  | nil => rfl
  | cons i rest ih =>
    rw [replayAll, replays]
    rcases b.replay base i a with ⟨_ | base', b'⟩
    · rfl
    · exact ih b' base'

variable {b : Builder}

theorem replay_act (hb : b.finalized = false) (base : Int) (e : Effect) (o : Int) :
    b.replay base (.act e o) a =
      (.ok base, { b with
        offset := a.add base o, recent := b.passes.emit e (a.add base o) b.recent }) := by
  cases e <;>
    simp [replay, change, set, input, output, edit, hb, Passes.emit, Instruction.offset, Except.map]

theorem replay_enter (hb : b.finalized = false) (base o : Int) :
    b.replay base (.enter o) a =
      (.ok 0, { b with
        recent := [], loops := ⟨b.recent, a.add base o⟩ :: b.loops, offset := 0 }) := by
  simp [replay, startLoop, hb, Instruction.offset, Except.map]

/-- The end of a loop is replayed by ending it at the offset that the base gives. -/
theorem replay_leave {base o : Int} {fate : LoopFate} {b' : Builder}
    (h : { b with offset := a.add base o }.endLoop = (.ok fate, b')) :
    b.replay base (.leave o) a = (.ok b'.offset, b') := by
  simp only [replay, Instruction.offset, h, Except.map]

/-- A builder without open loops hands over what it holds. -/
theorem finalize_of_loops_eq_nil (hb : b.finalized = false) (h : b.loops = []) :
    b.finalize.1 = .ok b.instructions := by
  have hclosed : b.canFinalize = true := by
    rw [canFinalize, h]
    rfl
  simp only [finalize, hb, hclosed, Bool.false_eq_true, if_false, if_true]

end Builder

/-! ## Commands -/

/-- What a builder can be told to do. -/
inductive Command
  | act (effect : Effect)
  | move (distance : Int)
  | startLoop
  | endLoop
  deriving DecidableEq, Repr

namespace Builder

/-- Gives a builder a command. What becomes of a loop that is ended is not told. -/
def call (b : Builder) (c : Command) (arithmetic : Arithmetic := .exact) :
    Except BuildError Unit × Builder :=
  match c with
  | .act (.change delta) => b.change delta
  | .act (.set value) => b.set value
  | .act .input => b.input
  | .act .output => b.output
  | .move distance => b.move distance arithmetic
  | .startLoop => b.startLoop
  | .endLoop =>
    let (result, b) := b.endLoop
    (result.map fun _ => (), b)

variable {a : Arithmetic} {b : Builder}

theorem call_act (hb : b.finalized = false) (e : Effect) :
    b.call (.act e) a = (.ok (), { b with recent := b.passes.emit e b.offset b.recent }) := by
  cases e <;> simp [call, change, set, input, output, edit, hb, Passes.emit]

theorem call_move (hb : b.finalized = false) (distance : Int) :
    b.call (.move distance) a = (.ok (), { b with offset := a.add b.offset distance }) := by
  simp [call, move, hb]

theorem call_startLoop (hb : b.finalized = false) :
    b.call .startLoop a =
      (.ok (), { b with recent := [], loops := ⟨b.recent, b.offset⟩ :: b.loops, offset := 0 }) := by
  simp [call, startLoop, hb]

/-- What becomes of the innermost open loop when it is ended. -/
theorem endLoop_cases {l : OpenLoop} {outer : List OpenLoop} (hb : b.finalized = false)
    (h : b.loops = l :: outer) :
    (b.passes.deadLoops && isDead l outer) = true ∧
        b.endLoop = (.ok .removed,
          { b with recent := l.before, loops := outer, offset := l.entry }) ∨
      (b.passes.deadLoops && isDead l outer) = false ∧
        (b.passes.clearLoops && isClearing b.recent b.offset) = true ∧
        b.endLoop = (.ok .cleared, { b with
          recent := b.passes.emitStore (.set 0) l.entry l.before
          loops := outer
          offset := l.entry }) ∨
      (b.passes.deadLoops && isDead l outer) = false ∧
        (b.passes.clearLoops && isClearing b.recent b.offset) = false ∧
        b.endLoop = (.ok .kept, { b with
          recent := .leave b.offset :: (b.recent ++ .enter l.entry :: l.before)
          loops := outer
          offset := 0 }) := by
  cases hdead : b.passes.deadLoops && isDead l outer with
  | true => simp [endLoop, hb, h, hdead]
  | false =>
    cases hclear : b.passes.clearLoops && isClearing b.recent b.offset with
    | true => simp [endLoop, hb, h, hdead, hclear]
    | false => simp [endLoop, hb, h, hdead, hclear]

/-- Ending a loop works if there is one, and takes it off the open loops. -/
theorem exists_endLoop {l : OpenLoop} {outer : List OpenLoop} (hb : b.finalized = false)
    (h : b.loops = l :: outer) :
    ∃ fate b', b.endLoop = (.ok fate, b') ∧ b'.loops = outer ∧ b'.finalized = false ∧
      b'.passes = b.passes := by
  rcases endLoop_cases hb h with ⟨-, hend⟩ | ⟨-, -, hend⟩ | ⟨-, -, hend⟩
  · exact ⟨_, _, hend, rfl, hb, rfl⟩
  · exact ⟨_, _, hend, rfl, hb, rfl⟩
  · exact ⟨_, _, hend, rfl, hb, rfl⟩

/-- How many loops are open after a command, if there were `depth` before. -/
def depthAfter (depth : Nat) : Command → Nat
  | .act _ | .move _ => depth
  | .startLoop => depth + 1
  | .endLoop => depth - 1

/-- A builder that has not handed over its program refuses only to end a loop where none is open. -/
theorem exists_call (hb : b.finalized = false) {c : Command} (hc : c = .endLoop → b.loops ≠ []) :
    ∃ b', b.call c a = (.ok (), b') ∧ b'.loops.length = depthAfter b.loops.length c ∧
      b'.finalized = false ∧ b'.passes = b.passes := by
  cases c with
  | act e => exact ⟨_, call_act hb e, rfl, hb, rfl⟩
  | move distance => exact ⟨_, call_move hb distance, rfl, hb, rfl⟩
  | startLoop => exact ⟨_, call_startLoop hb, rfl, hb, rfl⟩
  | endLoop =>
    obtain ⟨l, outer, hloops⟩ := List.exists_cons_of_ne_nil (hc rfl)
    obtain ⟨fate, b', hend, houter, hfin, hpasses⟩ := exists_endLoop hb hloops
    refine ⟨b', by simp only [call, hend, Except.map], ?_, hfin, hpasses⟩
    rw [houter, hloops]
    rfl

theorem call_endLoop_of_loops_eq_nil (hb : b.finalized = false) (h : b.loops = []) :
    b.call .endLoop a = (.error .unmatchedLoopEnd, b) := by
  simp only [call, endLoop, hb, h, Bool.false_eq_true, if_false, Except.map]

/-- **What a command does that is taken.** -/
theorem call_inv {b' : Builder} {c : Command} (hb : b.finalized = false)
    (h : b.call c a = (.ok (), b')) :
    (∃ e, c = .act e ∧ b' = { b with recent := b.passes.emit e b.offset b.recent }) ∨
      (∃ distance, c = .move distance ∧ b' = { b with offset := a.add b.offset distance }) ∨
      (c = .startLoop ∧
        b' = { b with recent := [], loops := ⟨b.recent, b.offset⟩ :: b.loops, offset := 0 }) ∨
      ∃ l outer fate, c = .endLoop ∧ b.loops = l :: outer ∧ b.endLoop = (.ok fate, b') := by
  cases c with
  | act e =>
    rw [call_act hb] at h
    exact .inl ⟨e, rfl, (Prod.mk.inj h).2.symm⟩
  | move distance =>
    rw [call_move hb] at h
    exact .inr (.inl ⟨distance, rfl, (Prod.mk.inj h).2.symm⟩)
  | startLoop =>
    rw [call_startLoop hb] at h
    exact .inr (.inr (.inl ⟨rfl, (Prod.mk.inj h).2.symm⟩))
  | endLoop =>
    rcases hloops : b.loops with _ | ⟨l, outer⟩
    · rw [call_endLoop_of_loops_eq_nil hb hloops] at h
      cases h
    · obtain ⟨fate, b'', hend, -⟩ := exists_endLoop hb hloops
      simp only [call, hend, Except.map, Prod.mk.injEq, true_and] at h
      exact .inr (.inr (.inr ⟨l, outer, fate, rfl, rfl, h ▸ hend⟩))

/-! ## A builder without passes -/

theorem unwind_append (xs ys : List Instruction) (loops : List OpenLoop) :
    unwind (xs ++ ys) loops = xs ++ unwind ys loops := by
  cases loops with
  | nil => rfl
  | cons l outer => exact List.append_assoc _ _ _

/-- The end of a loop is put behind what the loop and all before it hold. -/
theorem unwind_leave (exit : Int) (recent : List Instruction) (l : OpenLoop)
    (outer : List OpenLoop) :
    unwind (.leave exit :: (recent ++ .enter l.entry :: l.before)) outer =
      .leave exit :: unwind recent (l :: outer) :=
  calc unwind ([.leave exit] ++ (recent ++ ([.enter l.entry] ++ l.before))) outer
    _ = [.leave exit] ++ (recent ++ ([.enter l.entry] ++ unwind l.before outer)) := by
      rw [unwind_append, unwind_append, unwind_append]
    _ = .leave exit :: unwind recent (l :: outer) := rfl

/-- The instruction that is written down for a command at an offset, if any. -/
def instruction? (offset : Int) : Command → Option Instruction
  | .act e => some (.act e offset)
  | .move _ => none
  | .startLoop => some (.enter offset)
  | .endLoop => some (.leave offset)

/-- The offset after a command. It counts anew after a loop delimiter. -/
def offsetAfter (offset : Int) (c : Command) (arithmetic : Arithmetic := .exact) : Int :=
  match c with
  | .act _ => offset
  | .move distance => arithmetic.add offset distance
  | .startLoop | .endLoop => 0

/-- A builder without passes keeps every loop that is ended. -/
theorem call_endLoop_off {l : OpenLoop} {outer : List OpenLoop} (hb : b.finalized = false)
    (hoff : b.passes = .off) (hloops : b.loops = l :: outer) :
    b.call .endLoop a = (.ok (), { b with
      recent := .leave b.offset :: (b.recent ++ .enter l.entry :: l.before)
      loops := outer
      offset := 0 }) := by
  simp only [call, endLoop, hb, hloops, hoff, Passes.off, Bool.false_and, Bool.false_eq_true,
    if_false, Except.map]

/-- **A builder without passes writes down one instruction for each command** that is not a move. -/
theorem call_off {b' : Builder} {c : Command} (hb : b.finalized = false) (hoff : b.passes = .off)
    (h : b.call c a = (.ok (), b')) :
    b'.instructions = b.instructions ++ (instruction? b.offset c).toList ∧
      b'.offset = offsetAfter b.offset c a := by
  rcases call_inv hb h with
    ⟨e, rfl, rfl⟩ | ⟨distance, rfl, rfl⟩ | ⟨rfl, rfl⟩ | ⟨l, outer, fate, rfl, hloops, -⟩
  · refine ⟨?_, rfl⟩
    rw [instructions, instructions, hoff, Passes.emit_off, ← List.singleton_append, unwind_append,
      List.reverse_append]
    rfl
  · exact ⟨(List.append_nil _).symm, rfl⟩
  · exact ⟨List.reverse_cons, rfl⟩
  · rw [call_endLoop_off hb hoff hloops] at h
    obtain rfl := (Prod.mk.inj h).2
    refine ⟨?_, rfl⟩
    rw [instructions, instructions, hloops, unwind_leave, List.reverse_cons]
    rfl

/-- The instructions around each open loop are those of a nest. -/
structure Nested (b : Builder) : Prop where
  recent : ∃ n : Nest, n.backwards = b.recent
  before : ∀ l ∈ b.loops, ∃ n : Nest, n.backwards = l.before

theorem Nested.start (passes : Passes) : ({ passes } : Builder).Nested :=
  ⟨⟨.done, rfl⟩, by simp⟩

/-- A builder without passes keeps its instructions nested. -/
theorem Nested.call {b' : Builder} {c : Command} (h : b.Nested) (hb : b.finalized = false)
    (hoff : b.passes = .off) (hcall : b.call c a = (.ok (), b')) : b'.Nested := by
  obtain ⟨n, hn⟩ := h.recent
  rcases call_inv hb hcall with
    ⟨e, rfl, rfl⟩ | ⟨distance, rfl, rfl⟩ | ⟨rfl, rfl⟩ | ⟨l, outer, fate, rfl, hloops, -⟩
  · refine ⟨⟨n ++ .act e b.offset .done, ?_⟩, h.before⟩
    rw [Nest.backwards_append_act, hoff, Passes.emit_off, hn]
  · exact ⟨h.recent, h.before⟩
  · exact ⟨⟨.done, rfl⟩, List.forall_mem_cons.mpr ⟨h.recent, h.before⟩⟩
  · rw [call_endLoop_off hb hoff hloops] at hcall
    obtain rfl := (Prod.mk.inj hcall).2
    obtain ⟨⟨before, hbefore⟩, houter⟩ := List.forall_mem_cons.mp (hloops ▸ h.before)
    refine ⟨⟨before ++ .loop l.entry n b.offset .done, ?_⟩, houter⟩
    rw [Nest.backwards_append_loop, hn, hbefore]

theorem Nested.balanced (h : b.Nested) (hloops : b.loops = []) :
    Program.Balanced b.instructions := by
  obtain ⟨n, hn⟩ := h.recent
  refine ⟨n, ?_⟩
  rw [instructions, hloops, unwind, ← hn, Nest.backwards, List.reverse_reverse]

/-! ## Two builders given the same commands -/

/-- The offset of a builder, and those at which its open loops were entered, have a property. -/
structure Offsets (P : Int → Prop) (b : Builder) : Prop where
  offset : P b.offset
  entries : ∀ l ∈ b.loops, P l.entry

theorem Offsets.start {P : Int → Prop} (hzero : P 0) (passes : Passes) :
    ({ passes } : Builder).Offsets P :=
  ⟨hzero, by simp⟩

/-- After the end of a loop, the offset is the one at which the loop was entered, or zero. -/
theorem Offsets.endLoop {P : Int → Prop} {fate : LoopFate} {b' : Builder}
    (h : ∀ l ∈ b.loops, P l.entry) (hzero : P 0) (hb : b.finalized = false)
    (hend : b.endLoop = (.ok fate, b')) : b'.Offsets P := by
  rcases hloops : b.loops with _ | ⟨l, outer⟩
  · simp [Builder.endLoop, hb, hloops] at hend
  obtain ⟨hentry, houter⟩ := List.forall_mem_cons.mp (hloops ▸ h)
  rcases endLoop_cases hb hloops with ⟨-, hcase⟩ | ⟨-, -, hcase⟩ | ⟨-, -, hcase⟩
  all_goals obtain rfl := (Prod.mk.inj (hend.symm.trans hcase)).2
  · exact ⟨hentry, houter⟩
  · exact ⟨hentry, houter⟩
  · exact ⟨hzero, houter⟩

/-- **Only a move makes a new offset**: all others are zero, or the builder has had them before. -/
theorem Offsets.call {P : Int → Prop} {b' : Builder} {c : Command} (h : b.Offsets P)
    (hzero : P 0) (hb : b.finalized = false)
    (hmove : ∀ distance, c = .move distance → P (a.add b.offset distance))
    (hcall : b.call c a = (.ok (), b')) : b'.Offsets P := by
  rcases call_inv hb hcall with
    ⟨e, rfl, rfl⟩ | ⟨distance, rfl, rfl⟩ | ⟨rfl, rfl⟩ | ⟨l, outer, fate, rfl, -, hend⟩
  · exact ⟨h.offset, h.entries⟩
  · exact ⟨hmove distance rfl, h.entries⟩
  · exact ⟨hzero, List.forall_mem_cons.mpr ⟨h.offset, h.entries⟩⟩
  · exact .endLoop h.entries hzero hb hend

/-- The builder `plain`, without passes, and the builder `live` have been given the same commands:
replaying what `plain` has written down comes to `live`, up to the offset of commands to come. Adding
zero to an offset of `live` does not change it; with sums that wrap, this says that it fits. -/
structure InStep (a : Arithmetic) (plain live : Builder) : Prop where
  off : plain.passes = .off
  plain_open : plain.finalized = false
  live_open : live.finalized = false
  reduced : live.Offsets fun o => a.add o 0 = o
  depth : live.loops.length = plain.loops.length
  replayed : ∃ base b, ({ passes := live.passes } : Builder).replays 0 plain.instructions a =
    .ok (base, b) ∧ { b with offset := live.offset } = live ∧
      live.offset = a.add base plain.offset

theorem InStep.start (a : Arithmetic) (passes : Passes) :
    InStep a { passes := .off } { passes } where
  off := rfl
  plain_open := rfl
  live_open := rfl
  reduced := .start (P := fun o => a.add o 0 = o) a.add_zero_zero passes
  depth := rfl
  replayed := ⟨0, _, rfl, rfl, a.add_zero_zero.symm⟩

/-- One more instruction at the end of a replay. -/
theorem replays_concat {b : Builder} {base base' : Int} {p : Program} {i : Instruction}
    {b' b'' : Builder} (h : b.replays base p a = .ok (base', b')) {result : Except BuildError Int}
    (hi : b'.replay base' i a = (result, b'')) :
    b.replays base (p ++ [i]) a = result.map fun base'' => (base'', b'') := by
  rw [replays_append, h]
  simp only [replays, hi]
  cases result <;> rfl

/-- **Builders that are in step stay in step**: the builder with passes takes every command that the
plain one takes. -/
theorem InStep.call {plain live plain' : Builder} {c : Command} (h : InStep a plain live)
    (hcall : plain.call c a = (.ok (), plain')) :
    ∃ live', live.call c a = (.ok (), live') ∧ live'.passes = live.passes ∧
      InStep a plain' live' := by
  have hopen : c = .endLoop → plain.loops ≠ [] := by
    rintro rfl hloops
    rw [call_endLoop_of_loops_eq_nil h.plain_open hloops] at hcall
    cases hcall
  have hlive : c = .endLoop → live.loops ≠ [] := by
    intro hc hloops
    refine hopen hc (List.length_eq_zero_iff.mp ?_)
    rw [← h.depth, hloops, List.length_nil]
  obtain ⟨p, hp, hpdepth, hpfin, hpoff⟩ := exists_call h.plain_open hopen
  obtain ⟨live', hlive', hdepth, hfin, hpasses⟩ := exists_call h.live_open hlive
  obtain ⟨hinstructions, hoffset⟩ := call_off h.plain_open h.off hcall
  rw [hcall] at hp
  obtain rfl := (Prod.mk.inj hp).2
  have hreduced : live'.Offsets fun o => a.add o 0 = o :=
    h.reduced.call a.add_zero_zero h.live_open (fun _ _ => a.add_add_zero _ _) hlive'
  refine ⟨live', hlive', hpasses, hpoff.trans h.off, hpfin, hfin, hreduced, ?_, ?_⟩
  · rw [hdepth, hpdepth, h.depth]
  obtain ⟨base, b, hreplays, hb, hsum⟩ := h.replayed
  have hbfin : b.finalized = false := by
    have := congrArg Builder.finalized hb
    exact this.trans h.live_open
  rw [hpasses, hinstructions, hoffset]
  cases c with
  | act e =>
    rw [call_act h.live_open] at hlive'
    obtain rfl := (Prod.mk.inj hlive').2
    refine ⟨base, _, replays_concat hreplays (replay_act hbfin base e plain.offset), ?_, hsum⟩
    rw [← hb, ← hsum]
  | move distance =>
    rw [call_move h.live_open] at hlive'
    obtain rfl := (Prod.mk.inj hlive').2
    refine ⟨base, b, ?_, ?_, ?_⟩
    · rw [instruction?, Option.toList_none, List.append_nil]
      exact hreplays
    · rw [← hb]
    · change a.add live.offset distance = a.add base (a.add plain.offset distance)
      rw [hsum, a.add_assoc]
  | startLoop =>
    rw [call_startLoop h.live_open] at hlive'
    obtain rfl := (Prod.mk.inj hlive').2
    refine ⟨0, _, replays_concat hreplays (replay_enter hbfin base plain.offset), ?_,
      a.add_zero_zero.symm⟩
    rw [← hb, ← hsum]
  | endLoop =>
    obtain ⟨l, outer, hloops⟩ := List.exists_cons_of_ne_nil (hlive rfl)
    obtain ⟨fate, b', hend, -⟩ := exists_endLoop h.live_open hloops
    simp only [Builder.call, hend, Except.map, Prod.mk.injEq, true_and] at hlive'
    subst hlive'
    rw [← hb, hsum] at hend
    exact ⟨b'.offset, b', replays_concat hreplays (replay_leave hend), rfl, hreduced.offset.symm⟩

/-- Once all loops are closed, optimising what the plain builder hands over gives what the other one
hands over. -/
theorem InStep.optimize {plain live : Builder} (h : InStep a plain live)
    (hloops : plain.loops = []) :
    plain.instructions.optimize live.passes a = .ok live.instructions := by
  obtain ⟨base, b, hreplays, hb, -⟩ := h.replayed
  have hlive : live.loops = [] := by
    apply List.length_eq_zero_iff.mp
    rw [h.depth, hloops, List.length_nil]
  rw [Program.optimize, replayAll_eq, hreplays]
  have hbfin : b.finalized = false := (congrArg Builder.finalized hb).trans h.live_open
  have hbloops : b.loops = [] := (congrArg Builder.loops hb).trans hlive
  have hbinstructions : b.instructions = live.instructions := by
    rw [← hb]
    rfl
  change b.finalize.1 = _
  rw [finalize_of_loops_eq_nil hbfin hbloops, hbinstructions]

end Builder

end Tapecode
