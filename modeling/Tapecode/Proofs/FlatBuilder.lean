import Mathlib.Data.List.Induction
import Tapecode.Proofs.NormalForm

/-!
# Builders that keep one list

A `Builder` keeps the instructions of each open loop apart. A `FlatBuilder` keeps all instructions
in one list and remembers the indices at which the open loops start. It looks at instructions by
their index, takes instructions away from the end one at a time, and cuts the list off at the start
of a loop, so it could come to an index that is out of range or to an empty list.

It never does. What a request does to a `Builder` is said once (`Builder.Serves`), and a flat
builder does the same with its one list: it gives the same answers and holds the same program
(`FlatBuilder.serve_flat`, `FlatBuilder.after?_flat`). No rewrite looks past the start of an open
loop (`Passes.emit_append_context`), so it makes no difference that the list goes on there.
-/

namespace Tapecode

/-! ## Requests -/

namespace Builder

/-- What a builder can be asked for. -/
inductive Request
  | command (c : Command)
  | finalize
  deriving DecidableEq, Repr

/-- What a request that is not refused is answered with. -/
inductive Answer
  | done
  | closed (fate : LoopFate)
  | program (p : Program)
  deriving DecidableEq, Repr

/-- Serves a request. A request that is refused is answered with an error. -/
def serve (b : Builder) (r : Request) (arithmetic : Arithmetic := .exact) :
    Except BuildError Answer × Builder :=
  match r with
  | .command .endLoop => b.endLoop.map (Except.map .closed) id
  | .command c => (b.call c arithmetic).map (Except.map fun _ => .done) id
  | .finalize => b.finalize.map (Except.map .program) id

/-- The builder after some requests, of which any may have been refused. -/
def after (b : Builder) (requests : List Request) (arithmetic : Arithmetic := .exact) : Builder :=
  requests.foldl (fun b r => (b.serve r arithmetic).2) b

/-- What a builder does with a request before its program is handed over. -/
inductive Serves (b : Builder) : Request → Except BuildError Answer × Builder → Prop
  | act (e : Effect) :
      Serves b (.command (.act e))
        (.ok .done, { b with recent := b.passes.emit e b.offset b.recent })
  | move (distance : Int) :
      Serves b (.command (.move distance)) (.ok .done, { b with offset := b.offset + distance })
  | startLoop :
      Serves b (.command .startLoop)
        (.ok .done, { b with recent := [], loops := ⟨b.recent, b.offset⟩ :: b.loops, offset := 0 })
  | unmatched (h : b.loops = []) :
      Serves b (.command .endLoop) (.error .unmatchedLoopEnd, b)
  | closed {l : OpenLoop} {outer : List OpenLoop} {fate : LoopFate} {b' : Builder}
      (h : b.loops = l :: outer) (hend : b.endLoop = (.ok fate, b')) :
      Serves b (.command .endLoop) (.ok (.closed fate), b')
  | finalize (h : b.loops = []) :
      Serves b .finalize (.ok (.program b.instructions), { b with recent := [], finalized := true })
  | unclosed (h : b.loops ≠ []) :
      Serves b .finalize (.error .unclosedLoop, b)

variable {b : Builder}

/-- **What a request does.** -/
theorem serves (hb : b.finalized = false) (r : Request) : b.Serves r (b.serve r) := by
  cases r with
  | command c =>
    cases c with
    | act e =>
      simp only [serve, call_act hb]
      exact .act e
    | move distance =>
      simp only [serve, call_move hb]
      exact .move distance
    | startLoop =>
      simp only [serve, call_startLoop hb]
      exact .startLoop
    | endLoop =>
      rcases hloops : b.loops with _ | ⟨l, outer⟩
      · simp only [serve, endLoop, hb, hloops, Bool.false_eq_true, if_false]
        exact .unmatched hloops
      · obtain ⟨fate, b', hend, -⟩ := exists_endLoop hb hloops
        simp only [serve, hend]
        exact .closed hloops hend
  | finalize =>
    have hclosed : b.canFinalize = true ↔ b.loops = [] := List.isEmpty_iff
    by_cases hloops : b.loops = []
    · simp only [serve, Builder.finalize, hb, hclosed.mpr hloops, Bool.false_eq_true, if_false,
        if_true]
      exact .finalize hloops
    · simp only [serve, Builder.finalize, hb, hclosed, hloops, Bool.false_eq_true, if_false]
      exact .unclosed hloops

/-- A finalized builder refuses every request. -/
theorem serve_of_finalized (hb : b.finalized = true) (r : Request) :
    b.serve r = (.error .alreadyFinalized, b) := by
  cases r with
  | finalize => simp [serve, Builder.finalize, hb, Except.map]
  | command c =>
    cases c with
    | act e => cases e <;> simp [serve, call, change, set, input, output, edit, hb, Except.map]
    | move distance => simp [serve, call, move, hb, Except.map]
    | startLoop => simp [serve, call, startLoop, hb, Except.map]
    | endLoop => simp [serve, endLoop, hb, Except.map]

end Builder

/-! ## One list and a stack of indices -/

/-- A program under construction that is kept in one list. -/
structure FlatBuilder where
  passes : Passes
  /-- The program built so far. -/
  instructions : Program := []
  /-- The indices of the starts of the open loops, outermost first. -/
  stack : List Nat := []
  offset : Int := 0
  finalized : Bool := false
  deriving DecidableEq, Repr

namespace FlatBuilder

/-- Why an action comes to nothing. -/
inductive Failure
  /-- The request is answered with an error. -/
  | refused (e : BuildError)
  /-- An instruction is looked at that is not there. -/
  | outOfRange
  deriving DecidableEq, Repr

/-- Something that is done with a flat builder. A failure does not undo what was done before it. -/
abbrev Action := EStateM Failure FlatBuilder

/-- Writes instructions down. -/
def push (instructions : List Instruction) : Action Unit :=
  modify fun b => { b with instructions := b.instructions ++ instructions }

/-- Takes the last instruction away. -/
def pop : Action Unit := do
  let b ← get
  if b.instructions = [] then throw (.refused .emptyPop)
  set { b with instructions := b.instructions.dropLast }

/-- The last instruction, if it writes the cell at `o`. -/
def lastWrite? (o : Int) (b : FlatBuilder) : Option Instruction :=
  b.instructions.getLast?.filter (·.writesAt o)

theorem pop_run {b : FlatBuilder} {older : Program} {last : Instruction}
    (h : b.instructions = older ++ [last]) :
    pop.run b = .ok () { b with instructions := older } := by
  simp [pop, h]

theorem length_lt_of_pop {b b' : FlatBuilder} {u : Unit} (h : pop.run b = .ok u b') :
    b'.instructions.length < b.instructions.length := by
  rcases hb : b.instructions.eq_nil_or_concat with hnil | ⟨older, last, hconcat⟩
  · simp [pop, hnil] at h
  · rw [List.concat_eq_append] at hconcat
    rw [pop_run hconcat] at h
    cases h
    simp [hconcat]

/-- Takes writes of the cell at `o` away from the end. -/
def popWrites (o : Int) : Action Unit := fun b =>
  match b.lastWrite? o with
  | none => .ok () b
  | some _ =>
    match _h : pop.run b with
    | .ok _ b' => popWrites o b'
    | .error e b' => .error e b'
termination_by b => b.instructions.length
decreasing_by exact length_lt_of_pop _h

/-- Writes a change down, or combines it with the last instruction. -/
def emitChange (delta : Int8) (o : Int) : Action Unit := do
  let b ← get
  match if b.passes.combineChanges then b.lastWrite? o else none with
  | some last => do
    pop
    push ((last.followedBy delta).getD [])
  | none => push [.act (.change delta) o]

/-- Writes a set or an input down behind what it does not overwrite. -/
def emitStore (e : Effect) (o : Int) : Action Unit := do
  if (← get).passes.deadStores then popWrites o
  push [.act e o]

/-- Writes an effect on the cell at `o` down. -/
def emit (e : Effect) (o : Int) : Action Unit :=
  match e with
  | .change delta => emitChange delta o
  | .set _ | .input => emitStore e o
  | .output => push [.act e o]

/-- The instruction at an index. -/
def instructionAt (i : Nat) : Action Instruction := do
  match (← get).instructions[i]? with
  | some x => pure x
  | none => throw .outOfRange

/-- The instructions from an index on. -/
def instructionsFrom (i : Nat) : Action (List Instruction) := do
  let b ← get
  if b.instructions.length < i then throw .outOfRange
  pure (b.instructions.drop i)

/-- Whether the cell of the loop that starts at an index is zero whenever the loop is entered. -/
def isDead (start : Nat) : Action Bool := do
  if start = 0 then pure true
  else
    let entry := (← instructionAt start).offset
    match ← instructionAt (start - 1) with
    | .leave _ => pure (entry == 0)
    | last => pure (last.isClear && last.offset == entry)

/-- Whether the loop that starts at an index does nothing but count its own cell to zero. -/
def isClearing (start : Nat) : Action Bool := do
  if (← get).offset = 0 then
    match ← instructionsFrom (start + 1) with
    | [.act (.change delta) 0] => pure (delta != 0)
    | _ => pure false
  else pure false

/-- A test that is made only if a pass is on. -/
def ifOn (pass : Passes → Bool) (test : Action Bool) : Action Bool := do
  if pass (← get).passes then test else pure false

/-- Cuts the program off before the loop that starts at an index, and goes back to its entry. -/
def cutAt (start : Nat) (entry : Int) : Action Unit :=
  modify fun b => { b with instructions := b.instructions.take start, offset := entry }

/-- Takes the innermost open loop off the stack. -/
def popStart : Action Nat := do
  let b ← get
  match b.stack.getLast? with
  | none => throw (.refused .unmatchedLoopEnd)
  | some start => do
    set { b with stack := b.stack.dropLast }
    pure start

/-- Starts a loop on the current cell. -/
def startLoop : Action Unit :=
  modify fun b => { b with
    instructions := b.instructions ++ [.enter b.offset]
    stack := b.stack ++ [b.instructions.length]
    offset := 0 }

/-- Ends the innermost open loop. -/
def endLoop : Action LoopFate := do
  let start ← popStart
  let entry := (← instructionAt start).offset
  if ← ifOn Passes.deadLoops (isDead start) then
    cutAt start entry
    pure .removed
  else if ← ifOn Passes.clearLoops (isClearing start) then
    cutAt start entry
    emit (.set 0) entry
    pure .cleared
  else
    push [.leave (← get).offset]
    modify fun b => { b with offset := 0 }
    pure .kept

/-- Hands the program over. -/
def finalize : Action Program := do
  let b ← get
  if b.stack = [] then
    set { b with instructions := [], finalized := true }
    pure b.instructions
  else throw (.refused .unclosedLoop)

/-- What is done for a request. -/
def perform : Builder.Request → Action Builder.Answer
  | .command (.act e) => do
    emit e (← get).offset
    pure .done
  | .command (.move distance) => do
    modify fun b => { b with offset := b.offset + distance }
    pure .done
  | .command .startLoop => do
    startLoop
    pure .done
  | .command .endLoop => do
    let fate ← endLoop
    pure (.closed fate)
  | .finalize => do
    let p ← finalize
    pure (.program p)

/-- Serves a request, unless the program has been handed over. -/
def serve (r : Builder.Request) : Action Builder.Answer := do
  if (← get).finalized then throw (.refused .alreadyFinalized)
  perform r

/-- The builder after a request, refused or not, unless it comes to an index out of range. -/
def next? (b : FlatBuilder) (r : Builder.Request) : Option FlatBuilder :=
  match (serve r).run b with
  | .ok _ b' | .error (.refused _) b' => some b'
  | .error .outOfRange _ => none

/-- The builder after some requests, of which any may have been refused. -/
def after? (b : FlatBuilder) (requests : List Builder.Request) : Option FlatBuilder :=
  requests.foldlM next? b

/-! ## What the actions come to -/

theorem lastWrite?_eq (o : Int) {b : FlatBuilder} {older : Program} {last : Instruction}
    (h : b.instructions = older ++ [last]) :
    b.lastWrite? o = if last.writesAt o then some last else none := by
  simp [lastWrite?, h, Option.filter]

theorem popWrites_of_not_write {o : Int} {b : FlatBuilder} (h : b.lastWrite? o = none) :
    (popWrites o).run b = .ok () b := by
  rw [EStateM.run, popWrites, h]

theorem popWrites_of_write {o : Int} {b b' : FlatBuilder} {last : Instruction} {u : Unit}
    (h : b.lastWrite? o = some last) (hpop : pop.run b = .ok u b') :
    (popWrites o).run b = (popWrites o).run b' := by
  rw [EStateM.run, popWrites]
  simp only [h]
  split
  · rename_i hpop'
    cases hpop.symm.trans hpop'
    rfl
  · rename_i hpop'
    cases hpop.symm.trans hpop'

/-- Taking writes away does not fail, and leaves what stands before them. -/
theorem popWrites_run (o : Int) (b : FlatBuilder) :
    (popWrites o).run b = .ok () { b with
      instructions := (b.instructions.reverse.dropWhile (·.writesAt o)).reverse } := by
  obtain ⟨passes, instructions, stack, offset, finalized⟩ := b
  induction instructions using List.reverseRecOn with
  | nil => exact popWrites_of_not_write rfl
  | append_singleton older last ih =>
    have hlast := lastWrite?_eq o (b := ⟨passes, older ++ [last], stack, offset, finalized⟩) rfl
    by_cases hwrites : last.writesAt o = true
    · rw [popWrites_of_write (hlast.trans (if_pos hwrites)) (pop_run rfl), ih]
      simp [hwrites]
    · rw [popWrites_of_not_write (hlast.trans (if_neg hwrites))]
      simp [hwrites]

theorem emitStore_run (e : Effect) (o : Int) (b : FlatBuilder) :
    (emitStore e o).run b = .ok () { b with
      instructions := (b.passes.emitStore e o b.instructions.reverse).reverse } := by
  cases hd : b.passes.deadStores with
  | false => simp [emitStore, hd, push, Passes.emitStore]
  | true => simp [emitStore, hd, push, Passes.emitStore, popWrites_run]

theorem emitChange_run (delta : Int8) (o : Int) (b : FlatBuilder) :
    (emitChange delta o).run b = .ok () { b with
      instructions := (b.passes.emitChange delta o b.instructions.reverse).reverse } := by
  rcases b.instructions.eq_nil_or_concat with hnil | ⟨older, last, hb⟩
  · simp [emitChange, lastWrite?, push, Passes.emitChange, hnil]
  rw [List.concat_eq_append] at hb
  have hlast := lastWrite?_eq o hb
  have hreverse : b.instructions.reverse = last :: older.reverse := by simp [hb]
  by_cases hmerge : (b.passes.combineChanges && last.writesAt o) = true
  · obtain ⟨hcombine, hwrites⟩ := Bool.and_eq_true_iff.mp hmerge
    obtain ⟨hwrite, ho⟩ := Bool.and_eq_true_iff.mp hwrites
    obtain ⟨merged, hmerged⟩ : ∃ merged, last.followedBy delta = some merged := by
      rw [← Option.ne_none_iff_exists', ne_eq, Passes.followedBy_eq_none_iff, hwrite]
      simp
    have hsmall : merged.reverse = merged := by
      rcases @Passes.rewrites_of_followedBy b.passes _ _ _ hmerged with rfl | ⟨i, rfl, -⟩
      · rfl
      · rfl
    simp [emitChange, hcombine, hlast, hwrites, pop_run hb, push, Passes.emitChange, hreverse, ho,
      hmerged, hsmall]
  · have hkept : b.passes.rewrites (last :: older.reverse ++ []) (.act (.change delta) o) =
        false := by
      simpa [Passes.rewrites, Passes.writtenLast] using hmerge
    have hemit := Passes.emit_of_not_rewrites hkept
    rw [Passes.emit] at hemit
    have hnone : (if b.passes.combineChanges then b.lastWrite? o else none) = none := by
      rw [hlast]
      simpa using hmerge
    simp [emitChange, hnone, push, hemit, hb]

/-- **An effect is written down as a builder does it**, looking at the whole program. -/
theorem emit_run (e : Effect) (o : Int) (b : FlatBuilder) :
    (emit e o).run b = .ok () { b with
      instructions := (b.passes.emit e o b.instructions.reverse).reverse } := by
  cases e with
  | change delta => exact emitChange_run delta o b
  | set v => exact emitStore_run (.set v) o b
  | input => exact emitStore_run .input o b
  | output => simp [emit, Passes.emit, push]

/-- A loop is dead or not by what stands before its start. -/
theorem isDead_run {b : FlatBuilder} {older body : List Instruction} {entry : Int}
    (h : b.instructions = older.reverse ++ .enter entry :: body) :
    (isDead older.length).run b = .ok (Passes.zeroLast entry older) b := by
  cases older with
  | nil => simp [isDead, Passes.zeroLast]
  | cons last older =>
    have hstart : b.instructions[older.length + 1]? = some (.enter entry) := by simp [h]
    have hlast : b.instructions[older.length]? = some last := by simp [h]
    cases last with
    | enter o => simp [isDead, instructionAt, hstart, hlast, Passes.zeroLast, Instruction.isClear]
    | leave o => simp [isDead, instructionAt, hstart, hlast, Passes.zeroLast, Instruction.offset]
    | act e o =>
      cases e <;>
        simp [isDead, instructionAt, hstart, hlast, Passes.zeroLast, Instruction.offset,
          Instruction.isClear]

theorem isClearing_run {b : FlatBuilder} {older recent : List Instruction} {entry : Int}
    (h : b.instructions = older.reverse ++ .enter entry :: recent.reverse) :
    (isClearing older.length).run b = .ok (Builder.isClearing recent b.offset) b := by
  have hfrom : (instructionsFrom (older.length + 1)).run b = .ok recent.reverse b := by
    have hdrop : b.instructions.drop (older.length + 1) = recent.reverse := by
      rw [h, List.append_cons]
      exact List.drop_left' (by simp)
    have hlength : ¬b.instructions.length < older.length + 1 := by
      simp [h]
    simp only [instructionsFrom, EStateM.run_bind, EStateM.run_get, hlength, if_false,
      EStateM.run_pure, hdrop]
  unfold Builder.isClearing
  split
  · rename_i delta
    by_cases ho : b.offset = 0
    · simp [isClearing, ho, hfrom]
    · simp [isClearing, ho]
  · rename_i hother
    by_cases ho : b.offset = 0
    · simp only [isClearing, EStateM.run_bind, EStateM.run_get, ho, if_true, hfrom]
      split
      · rename_i delta heq
        exact absurd (List.reverse_eq_iff.mp heq) (hother delta)
      · rfl
    · simp [isClearing, ho]

theorem ifOn_run (pass : Passes → Bool) {test : Action Bool} {b : FlatBuilder} {answer : Bool}
    (h : test.run b = .ok answer b) : (ifOn pass test).run b = .ok (pass b.passes && answer) b := by
  cases hpass : pass b.passes <;> simp [ifOn, hpass, h]

/-- **What becomes of the innermost open loop.** Its start is found where the stack says. -/
theorem endLoop_run {b : FlatBuilder} {older recent : List Instruction} {entry : Int}
    {outer : List Nat} (h : b.instructions = older.reverse ++ .enter entry :: recent.reverse)
    (hstack : b.stack = outer ++ [older.length]) :
    endLoop.run b =
      if b.passes.deadLoops && Passes.zeroLast entry older then
        .ok .removed { b with instructions := older.reverse, stack := outer, offset := entry }
      else if b.passes.clearLoops && Builder.isClearing recent b.offset then
        .ok .cleared { b with
          instructions := (b.passes.emitStore (.set 0) entry older).reverse
          stack := outer
          offset := entry }
      else
        .ok .kept { b with
          instructions := b.instructions ++ [.leave b.offset]
          stack := outer
          offset := 0 } := by
  have hpop : popStart.run b = .ok older.length { b with stack := outer } := by
    simp only [popStart, EStateM.run_bind, EStateM.run_get, EStateM.run_set, EStateM.run_pure,
      hstack, List.getLast?_concat, List.dropLast_concat]
  have h' : { b with stack := outer }.instructions =
      older.reverse ++ .enter entry :: recent.reverse := h
  have hstart : (instructionAt older.length).run { b with stack := outer } =
      .ok (.enter entry) { b with stack := outer } := by
    simp [instructionAt, h]
  have hdead := ifOn_run Passes.deadLoops (isDead_run h')
  have hclear := ifOn_run Passes.clearLoops (isClearing_run h')
  have hcut : (cutAt older.length entry).run { b with stack := outer } =
      .ok () { b with instructions := older.reverse, stack := outer, offset := entry } := by
    simp [cutAt, h]
  simp only [endLoop, EStateM.run_bind, hpop, hstart, Instruction.offset, hdead]
  cases b.passes.deadLoops && Passes.zeroLast entry older with
  | true => simp only [if_true, EStateM.run_bind, hcut, EStateM.run_pure]
  | false =>
    simp only [Bool.false_eq_true, if_false, EStateM.run_bind, hclear]
    cases b.passes.clearLoops && Builder.isClearing recent b.offset with
    | true =>
      simp only [if_true, EStateM.run_bind, hcut, emit_run, EStateM.run_pure, List.reverse_reverse,
        Passes.emit]
    | false =>
      simp only [Bool.false_eq_true, if_false, push, EStateM.run_bind, EStateM.run_get,
        EStateM.run_modify, EStateM.run_pure]

end FlatBuilder

namespace Passes

variable (passes : Passes)

/-- No rewrite looks past the start of an open loop. -/
theorem emit_append_context (e : Effect) (o : Int) (recent : List Instruction)
    (loops : List OpenLoop) :
    passes.emit e o (recent ++ Builder.context loops) =
      passes.emit e o recent ++ Builder.context loops := by
  have hstore (e : Effect) : passes.emitStore e o (recent ++ Builder.context loops) =
      passes.emitStore e o recent ++ Builder.context loops := by
    have hcontext : (Builder.context loops).dropWhile (·.writesAt o) = Builder.context loops := by
      cases loops <;> rfl
    cases hd : passes.deadStores with
    | false => simp [emitStore, hd]
    | true =>
      rcases hdrop : recent.dropWhile (·.writesAt o) with _ | ⟨i, rest⟩ <;>
        simp [emitStore, hd, List.dropWhile_append, hdrop, hcontext]
  cases e with
  | output => rfl
  | set v => exact hstore (.set v)
  | input => exact hstore .input
  | change delta =>
    cases recent with
    | nil => cases loops <;> simp [emit, emitChange, Builder.context, Instruction.followedBy]
    | cons last older =>
      simp only [emit, emitChange, List.cons_append]
      split <;> simp

end Passes

/-- A builder with its instructions in one list. -/
def Builder.flat (b : Builder) : FlatBuilder where
  passes := b.passes
  instructions := b.instructions
  stack := b.openStarts.reverse
  offset := b.offset
  finalized := b.finalized

namespace Builder

variable {b : Builder} {l : OpenLoop} {outer : List OpenLoop}

/-- The innermost open loop stands behind all that was written before it. -/
theorem reverse_unwind_cons (recent : List Instruction) (l : OpenLoop) (outer : List OpenLoop) :
    (unwind recent (l :: outer)).reverse =
      (unwind l.before outer).reverse ++ .enter l.entry :: recent.reverse := by
  simp [unwind]

theorem instructions_of_loops_eq_cons (h : b.loops = l :: outer) :
    b.instructions = (unwind l.before outer).reverse ++ .enter l.entry :: b.recent.reverse := by
  rw [instructions, h, reverse_unwind_cons]

theorem openStarts_of_loops_eq_cons (h : b.loops = l :: outer) :
    b.openStarts.reverse =
      (openStarts.starts outer).reverse ++ [(unwind l.before outer).length] := by
  rw [openStarts, h, openStarts.starts, List.reverse_cons]

/-- What stands behind the innermost loop start is emitted as if it stood alone. -/
theorem emit_unwind (passes : Passes) (e : Effect) (o : Int) (recent : List Instruction)
    (loops : List OpenLoop) :
    passes.emit e o (unwind recent loops) = unwind (passes.emit e o recent) loops := by
  rw [unwind_eq, unwind_eq, passes.emit_append_context]

end Builder

namespace FlatBuilder

/-- An answer as a flat builder gives it. -/
def reply :
    Except BuildError Builder.Answer × Builder → EStateM.Result Failure FlatBuilder Builder.Answer
  | (.ok a, b) => .ok a b.flat
  | (.error e, b) => .error (.refused e) b.flat

/-- The innermost open loop is ended as a builder ends it. -/
theorem endLoop_flat {b b' : Builder} {l : OpenLoop} {outer : List OpenLoop} {fate : LoopFate}
    (hb : b.finalized = false) (h : b.loops = l :: outer) (hend : b.endLoop = (.ok fate, b')) :
    endLoop.run b.flat = .ok fate b'.flat := by
  rw [endLoop_run (Builder.instructions_of_loops_eq_cons h)
    (Builder.openStarts_of_loops_eq_cons h), ← Builder.isDead_eq]
  change (if b.passes.deadLoops && Builder.isDead l outer then _
    else if b.passes.clearLoops && Builder.isClearing b.recent b.offset then _ else _) = _
  rcases Builder.endLoop_cases hb h with ⟨hdead, hend'⟩ | ⟨hdead, hclear, hend'⟩ |
    ⟨hdead, hclear, hend'⟩
  · cases hend.symm.trans hend'
    rw [if_pos hdead]
    rfl
  · cases hend.symm.trans hend'
    have hemit : b.flat.passes.emitStore (.set 0) l.entry (Builder.unwind l.before outer) = _ :=
      Builder.emit_unwind b.passes (.set 0) l.entry l.before outer
    rw [if_neg (Bool.eq_false_iff.mp hdead), if_pos hclear, hemit]
    rfl
  · cases hend.symm.trans hend'
    rw [if_neg (Bool.eq_false_iff.mp hdead), if_neg (Bool.eq_false_iff.mp hclear), Builder.flat,
      Builder.flat, Builder.instructions, Builder.instructions, Builder.unwind_leave, h,
      List.reverse_cons]
    rfl

/-- **A flat builder serves every request as a builder does.** -/
theorem serve_flat (b : Builder) (r : Builder.Request) :
    (serve r).run b.flat = reply (b.serve r) := by
  cases hb : b.finalized with
  | true =>
    rw [Builder.serve_of_finalized hb]
    simp [serve, Builder.flat, hb, reply]
  | false =>
    have hopen : (serve r).run b.flat = (perform r).run b.flat := by
      simp [serve, Builder.flat, hb]
    have hstack : b.flat.stack = [] ↔ b.loops = [] := by
      rw [Builder.flat, List.reverse_eq_nil_iff, Builder.openStarts]
      cases b.loops <;> simp [Builder.openStarts.starts]
    have hserves := b.serves hb r
    rw [hopen]
    generalize b.serve r = served at hserves
    cases hserves with
    | act e =>
      simp only [perform, EStateM.run_bind, EStateM.run_get, emit_run, EStateM.run_pure, reply,
        Builder.flat, Builder.instructions, List.reverse_reverse, Builder.emit_unwind]
      rfl
    | move distance => rfl
    | startLoop =>
      simp only [perform, startLoop, EStateM.run_bind, EStateM.run_modify, EStateM.run_pure, reply]
      simp [Builder.flat, Builder.instructions, Builder.unwind, Builder.openStarts,
        Builder.openStarts.starts]
    | unmatched h =>
      simp only [perform, endLoop, popStart, hstack.mpr h, EStateM.run_bind, EStateM.run_get,
        List.getLast?_nil]
      rfl
    | closed h hend =>
      simp only [perform, EStateM.run_bind, endLoop_flat hb h hend, EStateM.run_pure, reply]
    | finalize h =>
      simp only [perform, finalize, hstack.mpr h, EStateM.run_bind, EStateM.run_get, if_true,
        EStateM.run_set, EStateM.run_pure, reply]
      simp [Builder.flat, h, Builder.instructions, Builder.unwind, Builder.openStarts,
        Builder.openStarts.starts]
    | unclosed h =>
      simp only [perform, finalize, hstack, h, EStateM.run_bind, EStateM.run_get, if_false]
      rfl

theorem next?_flat (b : Builder) (r : Builder.Request) :
    b.flat.next? r = some (b.serve r).2.flat := by
  rw [next?, serve_flat]
  rcases b.serve r with ⟨e | a, b'⟩ <;> rfl

/-- **No request comes to an index out of range**, and after any requests a flat builder holds what
a builder holds. -/
theorem after?_flat (b : Builder) (requests : List Builder.Request) :
    b.flat.after? requests = some (b.after requests).flat := by
  induction requests generalizing b with
  | nil => rfl
  | cons r rest ih =>
    rw [after?, List.foldlM_cons, next?_flat]
    exact ih (b.serve r).2

end FlatBuilder

end Tapecode
