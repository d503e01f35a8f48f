import Tapecode.Proofs.Optimization
import Tapecode.Proofs.Reading
import Tapecode.Proofs.Visits

/-!
# Warnings are true

A parse warns of a loop if its builder finds the loop dead when it is closed. The builder looks at
the instructions that it holds when the loop is started, which are what its passes have made of the
instructions before. Here it is shown that such a loop is never run by the plain program.

* `Nest.Visits.explains`: wherever a run of the plain program comes to, the builder that has been
  given the instructions before that place explains the state: what it holds since its innermost
  open loop, run from some state, leads there.
* `Nest.Visits.exists_test`: a run that comes to a place in a loop has come to the start of the loop
  before, and found its cell not to be zero.
* `Parse.Reads.warned`: a warning carries the position of a loop start that has been read, and the
  builder before that start finds the loop dead.

`parse_warnings_sound` puts this together.
-/

namespace Tapecode

open Machine Behaviour

/-! ## Builders beside a run -/

/-- What the builder holds since its innermost open loop, run from some state, ends in the state
`t`, up to the offset `base`. If no loop is open, all cells were zero in the first state. -/
def Builder.Explains (settings : Settings) (b : Builder) (base : Int) (t : State) : Prop :=
  ∃ (r : Nest) (start mid : State), b.recent = r.backwards ∧ r.Runs settings start (.done mid) ∧
    Related base t mid ∧ (b.loops = [] → start.Blank)

namespace Builder.Explains

variable {settings : Settings} {b : Builder} {base : Int} {t u : State}

theorem initial (settings : Settings) (streams : Streams) (passes : Passes) :
    Explains settings { passes } 0 (.initial settings streams) :=
  ⟨.done, _, _, rfl, rfl, .refl _, fun _ => State.blank_initial settings streams⟩

/-- The cell of a loop that is found dead is zero. -/
theorem value_eq_zero (h : b.Explains settings base t) {o : Int}
    (hdead : isDead ⟨b.recent, base + o⟩ b.loops = true) {i : Nat} (hi : (i : Int) = t.pointer + o) :
    t.value i = 0 := by
  obtain ⟨r, start, mid, hrecent, hrun, hrel, hblank⟩ := h
  rw [hrecent] at hdead
  have hzero : ZeroAt (· = start) (r.Runs settings) (base + o) :=
    zeroAt_of_isDead hdead settings fun hloops s hs => hs ▸ hblank hloops
  have hpointer := hrel.pointer
  rw [State.value, ← hrel.tape]
  exact hzero start mid i rfl hrun (by omega)

/-- The builder goes on to explain the states of a run if what it makes of a piece absorbs it. -/
theorem absorbs {b' : Builder} {base' : Int} {r r' : Nest} {A : Behaviour} {start mid : State}
    (hrun : r.Runs settings start (.done mid)) (hrel : Related base t mid) (hA : A t (.done u))
    (habsorbs : Absorbs (· = start) (r.Runs settings) base A (r'.Runs settings) base')
    (hrecent : b'.recent = r'.backwards) (hblank : b'.loops = [] → start.Blank) :
    b'.Explains settings base' u := by
  obtain ⟨outcome, hrun', hmatch⟩ := habsorbs.done start mid t _ rfl hrun hrel hA trivial
  obtain ⟨mid', rfl, hrel'⟩ := hmatch.exists_done
  exact ⟨r', start, mid', hrecent, hrun', hrel', hblank⟩

end Builder.Explains

/-- **A builder explains the states of a run**, wherever the run comes to: the builder has been
given the instructions that stand before that place. -/
theorem Nest.Visits.explains {settings : Settings} {n : Nest} {s t : State} {before : Program}
    (h : n.Visits settings s before t) {b b' : Builder} {base base' : Int}
    (hb : b.finalized = false) (hs : b.Explains settings base s)
    (hreplays : b.replays base before = .ok (base', b')) : b'.Explains settings base' t := by
  induction h generalizing b base with
  | here =>
    obtain ⟨rfl, rfl⟩ := Prod.mk.inj (Except.ok.inj hreplays)
    exact hs
  | @act e o rest s u t before hrun _ ih =>
    obtain ⟨r, start, mid, hrecent, hruns, hrel, hblank⟩ := hs
    obtain ⟨r', hr', htakes⟩ := b.passes.emit_takes e (base + o) r
    simp only [Builder.replays, Builder.replay_act hb, Arithmetic.exact_add, hrecent, ← hr'] at hreplays
    refine ih (by exact hb) ?_ hreplays
    exact .absorbs hruns hrel hrun (htakes.absorbs settings _) rfl hblank
  | @inside entry exit body rest s u v t before _ _ _ _ ih =>
    -- in the loop, the builder starts anew
    simp only [Builder.replays, Builder.replay_enter hb] at hreplays
    refine ih (by exact hb) ?_ hreplays
    exact ⟨.done, v, v, rfl, rfl, .refl v, fun h => absurd h (List.cons_ne_nil _ _)⟩
  | @behind entry exit body rest s u t before hloop _ ih =>
    obtain ⟨r, start, mid, hrecent, hruns, hrel, hblank⟩ := hs
    obtain ⟨b₁, base₁, r₁, hreplays₁, -, hloops₁, hfin₁, hrecent₁, hsimplifies⟩ :=
      Builder.replays_simplifies (fun _ => True) (.loop entry body exit .done) b base r hb hrecent
        (by simp)
    have habsorbs := hsimplifies.absorbs settings (· = start) fun h _ hs => hs ▸ hblank h
    have hsplit : Instruction.enter entry :: (body.program ++ .leave exit :: before) =
        (Nest.loop entry body exit .done).program ++ before := by
      simp [Nest.program]
    rw [hsplit, Builder.replays_append, hreplays₁] at hreplays
    refine ih hfin₁ ?_ hreplays
    exact .absorbs hruns hrel (seq_done hloop rfl) habsorbs hrecent₁ (hloops₁ ▸ hblank)

/-! ## Places in loops -/

namespace Program

/-- How many more loops are started than ended. -/
def height : Program → Int
  | [] => 0
  | .act _ _ :: rest => height rest
  | .enter _ :: rest => height rest + 1
  | .leave _ :: rest => height rest - 1

@[simp] theorem height_append (p q : Program) : height (p ++ q) = height p + height q := by
  induction p with
  | nil => simp [height]
  | cons i rest ih =>
    cases i <;> simp only [List.cons_append, height, ih] <;> omega

theorem height_program (n : Nest) : height n.program = 0 := by
  induction n with
  | done => rfl
  | act e o rest ih => exact ih
  | loop entry body exit rest ihBody ihRest => simp [Nest.program, height, ihBody, ihRest]

/-- Every loop that is ended in the program has been started in it. -/
def NeverLeaves (p : Program) : Prop :=
  ∀ q, q <+: p → 0 ≤ height q

theorem NeverLeaves.mono {p q : Program} (h : p.NeverLeaves) (hq : q <+: p) :
    q.NeverLeaves :=
  fun _ h' => h _ (h'.trans hq)

theorem neverLeaves_program (n : Nest) : NeverLeaves n.program := by
  induction n with
  | done =>
    intro q hq
    rw [List.prefix_nil.mp hq]
    decide
  | act e o rest ih =>
    intro q hq
    rcases List.prefix_cons_iff.mp hq with rfl | ⟨q, rfl, hrest⟩
    · decide
    · exact ih q hrest
  | loop entry body exit rest ihBody ihRest =>
    intro q hq
    rcases List.prefix_cons_iff.mp hq with rfl | ⟨q, rfl, after, hafter⟩
    · decide
    rcases List.append_eq_append_iff.mp hafter with ⟨c, hc, -⟩ | ⟨c, rfl, hc⟩
    · have hbody := ihBody q ⟨c, hc.symm⟩
      simp only [height]
      omega
    · rcases List.cons_eq_append_iff.mp hc with ⟨rfl, -⟩ | ⟨c, rfl, hc⟩
      · simp [height, height_program]
      · have hrest := ihRest c ⟨after, (List.cons.inj hc).2.symm⟩
        simpa [height, height_program] using hrest

theorem width_eq_zero_iff {p : Program} : p.width = 0 ↔ p = [] := by
  constructor
  · intro h
    cases p with
    | nil => rfl
    | cons i rest =>
      have hi : 0 < i.width := by
        cases i with
        | act e o => cases e <;> exact Nat.zero_lt_succ _
        | enter o => exact Nat.zero_lt_succ _
        | leave o => exact Nat.zero_lt_succ _
      rw [width_cons] at h
      omega
  · rintro rfl
    rfl

/-- Instructions stand at different addresses. -/
theorem eq_of_width_eq {p q r : Program} (hp : p <+: r) (hq : q <+: r) (h : p.width = q.width) :
    p = q := by
  rcases List.prefix_or_prefix_of_prefix hp hq with ⟨c, rfl⟩ | ⟨c, rfl⟩
  all_goals
    rw [width_append] at h
    rw [width_eq_zero_iff.mp (show width c = 0 by omega), List.append_nil]

/-- An address behind a loop's start and before the end of the loop is one of the loop's body, or
that of its end. -/
theorem exists_inner_of_width {p before body rest : Program} {o exit : Int}
    (hp : p <+: before ++ .enter o :: (body ++ .leave exit :: rest))
    (hlow : before.width + 3 ≤ p.width) (hhigh : p.width < before.width + 3 + (body.width + 3)) :
    ∃ inner, p = before ++ .enter o :: inner ∧ inner <+: body := by
  obtain ⟨after, hafter⟩ := hp
  rcases List.append_eq_append_iff.mp hafter with ⟨c, rfl, -⟩ | ⟨c, rfl, hc⟩
  · rw [width_append] at hlow
    omega
  rcases List.cons_eq_append_iff.mp hc with ⟨rfl, -⟩ | ⟨inner, rfl, hinner⟩
  · rw [List.append_nil] at hlow
    omega
  refine ⟨inner, rfl, ?_⟩
  rcases List.append_eq_append_iff.mp hinner with ⟨c, rfl, hleave⟩ | ⟨c, rfl, -⟩
  · rcases List.cons_eq_append_iff.mp hleave with ⟨rfl, -⟩ | ⟨d, rfl, -⟩
    · exact ⟨[], by simp⟩
    · simp only [width_append, width_cons, Instruction.width_enter, Instruction.width_leave] at hhigh
      omega
  · exact List.prefix_append _ _

end Program

/-- After a move, the cell under the pointer is the one at the offset. -/
theorem State.exists_of_moveBy {settings : Settings} {s t : State} {o : Int}
    (h : s.moveBy settings o = .done t) :
    ∃ i : Nat, (i : Int) = s.pointer + o ∧ t.current = s.value i := by
  obtain ⟨i, hfinds⟩ := State.exists_finds (by rw [← State.moveBy, h]; trivial)
  rw [State.moveBy, hfinds.visit] at h
  obtain rfl := Outcome.done.inj h
  exact ⟨i, hfinds.eq_add, rfl⟩

/-- **A run that comes to a place in a loop has come to the start of the loop before**, and found
that its cell is not zero. -/
theorem Nest.Visits.exists_test {settings : Settings} {n : Nest} {s u : State}
    {before inner : Program} {o : Int}
    (h : n.Visits settings s (before ++ .enter o :: inner) u) (hinner : inner.NeverLeaves) :
    ∃ t v, n.Visits settings s before t ∧ t.moveBy settings o = .done v ∧ v.current ≠ 0 := by
  generalize hp : before ++ .enter o :: inner = p at h
  induction h generalizing before with
  | here => simp at hp
  | act hrun _ ih =>
    cases before with
    | nil => cases hp
    | cons i before =>
      obtain ⟨rfl, htail⟩ := List.cons.inj hp
      obtain ⟨t, v, hvisits, htest⟩ := ih htail
      exact ⟨t, v, .act hrun hvisits, htest⟩
  | inside hmove hrounds hcell _ ih =>
    cases before with
    | nil =>
      cases hp
      exact ⟨_, _, .here, hmove, hrounds.current_ne_zero hcell⟩
    | cons i before =>
      obtain ⟨rfl, htail⟩ := List.cons.inj hp
      obtain ⟨t, v, hvisits, htest⟩ := ih htail
      exact ⟨t, v, .inside hmove hrounds hcell hvisits, htest⟩
  | @behind entry exit body rest s w u before' hloop _ ih =>
    cases before with
    | nil =>
      -- the loop has been left
      obtain ⟨-, rfl⟩ := List.cons.inj hp
      have hleft := hinner (body.program ++ [.leave exit]) ⟨before', by simp⟩
      rw [Program.height_append, Program.height_program] at hleft
      cases hleft
    | cons i before =>
      obtain ⟨rfl, htail⟩ := List.cons.inj hp
      rcases append_cons_cases htail.symm with ⟨c, hbody, rfl⟩ | ⟨-, h, -⟩ | ⟨c, rfl, rfl⟩
      · -- the loop is one of those in the body, and has been left
        have hheight := Program.height_program body
        have hbefore := Program.neverLeaves_program body before ⟨_, hbody.symm⟩
        have hc := hinner c (List.prefix_append _ _)
        rw [hbody, Program.height_append, Program.height] at hheight
        omega
      · cases h
      · obtain ⟨t, v, hvisits, htest⟩ := ih rfl
        exact ⟨t, v, .behind hloop hvisits, htest⟩

/-! ## Loops that are never run -/

/-- The instruction at `address` starts a loop that is never run: whenever the machine comes to it
and its cell is on the tape, the cell is zero, and the machine comes to no address inside the
loop. -/
def Bytecode.NeverRuns (code : Bytecode) (address : Nat) : Prop :=
  ∃ (offset : Int) (length : Nat),
    fetch code.toArray address = some (.jumpIfZero offset length) ∧
    ∀ settings streams m, Reaches code.toArray settings (.load settings streams) m →
      (m.counter = address → ∀ i, m.cell offset = .ok i → m.value i = 0) ∧
      ¬(address + 3 ≤ m.counter ∧ m.counter < address + 3 + length)

/-- **A loop that a builder finds dead is never run** by the program that the builder has been
given. -/
theorem Nest.neverRuns_of_isDead {passes : Passes} {n : Nest} {before after : Program} {o base : Int}
    {b : Builder} (hsplit : n.program = before ++ .enter o :: after)
    (hreplays : ({ passes } : Builder).replays 0 before = .ok (base, b))
    (hdead : Builder.isDead ⟨b.recent, base + o⟩ b.loops = true) :
    Bytecode.NeverRuns n.encode before.width := by
  obtain ⟨op, hplaced, hop⟩ := n.exists_placed_of_program hsplit
  cases hop with
  | enter o exit body rest hbody h =>
    refine ⟨o, body.width + 3, hplaced.fetch, fun settings streams m hreaches => ?_⟩
    obtain ⟨place, t, hvisits, rfl⟩ := (Nest.reaches_iff (s := .initial settings streams)).mp hreaches
    have hzero (t : State) (h : n.Visits settings (.initial settings streams) before t) (i : Nat)
        (hi : (i : Int) = t.pointer + o) : t.value i = 0 :=
      (h.explains rfl (.initial settings streams passes) hreplays).value_eq_zero hdead hi
    constructor
    · intro hcounter i hi
      have hbefore : before <+: n.program := ⟨_, hsplit.symm⟩
      obtain rfl := Program.eq_of_width_eq hvisits.isPrefix hbefore hcounter
      exact hzero t hvisits i (locate_eq_ok hi).2
    · rintro ⟨hlow, hhigh⟩
      obtain ⟨inner, rfl, hinner⟩ := Program.exists_inner_of_width
        (by rw [← h, ← hsplit]; exact hvisits.isPrefix) hlow hhigh
      obtain ⟨k, rfl⟩ := hbody
      obtain ⟨u, v, hu, hmove, hcell⟩ :=
        hvisits.exists_test ((Program.neverLeaves_program k).mono hinner)
      obtain ⟨i, hi, hcurrent⟩ := State.exists_of_moveBy hmove
      exact hcell (hcurrent.trans (hzero u hu i hi))

/-! ## Parses -/

namespace Builder

variable {b b' : Builder}

/-- The open loops after a command. -/
def loopsAfter (b : Builder) : Command → List OpenLoop
  | .act _ | .move _ => b.loops
  | .startLoop => ⟨b.recent, b.offset⟩ :: b.loops
  | .endLoop => b.loops.tail

theorem loops_of_call {c : Command} (hb : b.finalized = false) (h : b.call c = (.ok (), b')) :
    b'.loops = b.loopsAfter c := by
  rcases call_inv hb h with
    ⟨e, rfl, rfl⟩ | ⟨distance, rfl, rfl⟩ | ⟨rfl, rfl⟩ | ⟨l, outer, fate, rfl, hloops, hend⟩
  · rfl
  · rfl
  · rfl
  · obtain ⟨_, b₁, hend₁, houter, -⟩ := exists_endLoop hb hloops
    obtain rfl := (Prod.mk.inj (hend.symm.trans hend₁)).2
    rw [houter, loopsAfter, hloops]
    rfl

/-- Only loops that are found dead are removed. -/
theorem isDead_of_endLoop {l : OpenLoop} {outer : List OpenLoop} (hloops : b.loops = l :: outer)
    (h : b.endLoop = (.ok .removed, b')) : isDead l outer = true := by
  unfold endLoop at h
  split at h
  · cases h
  · rw [hloops] at h
    simp only at h
    split at h
    · rename_i hdead
      exact (Bool.and_eq_true_iff.mp hdead).2
    · split at h <;> cases h

end Builder

namespace Parse

variable {passes : Passes} {bytes : List UInt8} {p : Parse}

/-- The loop `l`, in the open loops `outer`, has been started at a position of what has been read. -/
def Started (passes : Passes) (bytes : List UInt8) (position : Position) (l : OpenLoop)
    (outer : List OpenLoop) : Prop :=
  ∃ before after p, bytes = before ++ Symbol.loopStart.byte :: after ∧
    position = positionAfter before ∧ Reads passes before p ∧
    l = ⟨p.builder.recent, p.builder.offset⟩ ∧ outer = p.builder.loops

theorem Started.concat {position : Position} {l : OpenLoop} {outer : List OpenLoop}
    (h : Started passes bytes position l outer) (b : UInt8) :
    Started passes (bytes ++ [b]) position l outer := by
  obtain ⟨before, after, p, rfl, hrest⟩ := h
  exact ⟨before, after ++ [b], p, by simp, hrest⟩

/-- Where the open loops of a parse have been started. -/
inductive Origins (passes : Passes) (bytes : List UInt8) : List Position → List OpenLoop → Prop
  | nil : Origins passes bytes [] []
  | cons {position : Position} {opened : List Position} {l : OpenLoop} {outer : List OpenLoop}
      (h : Started passes bytes position l outer) (hrest : Origins passes bytes opened outer) :
      Origins passes bytes (position :: opened) (l :: outer)

namespace Origins

variable {opened : List Position} {loops : List OpenLoop}

theorem concat (h : Origins passes bytes opened loops) (b : UInt8) :
    Origins passes (bytes ++ [b]) opened loops := by
  induction h with
  | nil => exact .nil
  | cons h _ ih => exact .cons (h.concat b) ih

theorem tail (h : Origins passes bytes opened loops) :
    Origins passes bytes opened.tail loops.tail := by
  cases h with
  | nil => exact .nil
  | cons _ hrest => exact hrest

theorem exists_started {position : Position}
    (h : Origins passes bytes (position :: opened) loops) :
    ∃ l outer, loops = l :: outer ∧ Started passes bytes position l outer := by
  cases h with
  | cons h _ => exact ⟨_, _, rfl, h⟩

end Origins

/-- A loop end that is taken adds a warning exactly if the loop is removed. -/
theorem step_loopEnd_inv {p' : Parse} {position : Position}
    (h : p.step .loopEnd position = .ok p') :
    ∃ start opened fate b, p.opened = start :: opened ∧ p.builder.endLoop = (.ok fate, b) ∧
      p'.warnings = if fate = .removed then p.warnings.push ⟨start⟩ else p.warnings := by
  simp only [Parse.step] at h
  rcases hopened : p.opened with _ | ⟨start, opened⟩
  · simp only [hopened] at h
    cases h
  rcases hend : p.builder.endLoop with ⟨_ | fate, b⟩
  · simp only [hopened, hend] at h
    cases h
  · simp only [hopened, hend] at h
    obtain rfl := Except.ok.inj h
    exact ⟨start, opened, fate, b, rfl, rfl, rfl⟩

/-- The positions that a parse keeps are those where its open loops have been started. -/
theorem Reads.origins (h : Reads passes bytes p) :
    Origins passes bytes p.opened p.builder.loops := by
  induction h with
  | start => exact .nil
  | comment _ _ ih => exact ih.concat _
  | @symbol bytes p p' b s hreads hb hstep ih =>
    have hsound := hreads.sound.1
    obtain ⟨p₁, hstep₁, hcall, hopened, -⟩ := hsound.step _ (opened_ne_nil_of_step hstep)
    obtain rfl := Except.ok.inj (hstep.symm.trans hstep₁)
    rw [hopened, Builder.loops_of_call hsound.unfinished hcall]
    cases s with
    | loopStart =>
      refine .cons ⟨bytes, [], p, ?_, rfl, hreads, rfl, rfl⟩ (ih.concat b)
      rw [Symbol.byte_of_ofByte? hb]
    | loopEnd => exact (ih.concat b).tail
    | increment | decrement | left | right | input | output => exact ih.concat b

/-- **A warning carries the position where a loop has been started** that the builder finds dead. -/
theorem Reads.warned (h : Reads passes bytes p) :
    ∀ w ∈ p.warnings, ∃ l outer, Started passes bytes w.position l outer ∧
      Builder.isDead l outer = true := by
  induction h with
  | start => simp [Parse.start]
  | comment _ _ ih =>
    intro w hw
    obtain ⟨l, outer, hstarted, hdead⟩ := ih w hw
    exact ⟨l, outer, hstarted.concat _, hdead⟩
  | @symbol bytes p p' b s hreads hb hstep ih =>
    have hold (w : Warning) (hw : w ∈ p.warnings) : ∃ l outer,
        Started passes (bytes ++ [b]) w.position l outer ∧ Builder.isDead l outer = true := by
      obtain ⟨l, outer, hstarted, hdead⟩ := ih w hw
      exact ⟨l, outer, hstarted.concat b, hdead⟩
    by_cases hs : s = .loopEnd
    · subst hs
      obtain ⟨start, opened, fate, b', hopened, hend, hwarnings⟩ := step_loopEnd_inv hstep
      obtain ⟨l, outer, hloops, hstarted⟩ := (hopened ▸ hreads.origins).exists_started
      intro w hw
      by_cases hfate : fate = .removed
      · subst hfate
        rw [hwarnings, if_pos rfl] at hw
        rcases Array.mem_push.mp hw with hw | rfl
        · exact hold w hw
        · exact ⟨l, outer, hstarted.concat b, Builder.isDead_of_endLoop hloops hend⟩
      · rw [hwarnings, if_neg hfate] at hw
        exact hold w hw
    · obtain ⟨p₁, hstep₁, hcall, -⟩ := hreads.sound.1.step _ (opened_ne_nil_of_step hstep)
      obtain rfl := Except.ok.inj (hstep.symm.trans hstep₁)
      rw [step_of_call _ hs hcall] at hstep
      rw [← Except.ok.inj hstep]
      exact hold

end Parse

/-- **Warnings are true.** Each warning of a parse carries the position of a loop start in the source
text. In the code that the source text has without passes, the instruction of that loop start stands
behind those of the symbols before it, and it starts a loop that is never run. -/
theorem parse_warnings_sound {passes : Passes} {source : List UInt8} {program : Program}
    {ws : List Warning} (hparse : parse passes source = .ok (program, ws)) :
    ∃ plain ws' code, parse .off source = .ok (plain, ws') ∧ plain.compile = .ok code ∧
      ∀ w ∈ ws, ∃ before after, source = before ++ Symbol.loopStart.byte :: after ∧
        w.position = positionAfter before ∧
        code.NeverRuns (Language.plain 0 (symbolsOf before)).width := by
  obtain ⟨last, hreads, -, -, rfl⟩ := Parse.Reads.of_parse hparse
  rcases parse_cases passes source with ⟨e, -, he, -⟩ | ⟨plain, ws', -, -, hplain, -, ⟨n, rfl⟩, -⟩
  · rw [hparse] at he
    cases he
  refine ⟨n.program, ws', n.encode, hplain, n.compile_program, fun w hw => ?_⟩
  obtain ⟨l, outer, ⟨before, after, live, rfl, hposition, hlive, rfl, rfl⟩, hdead⟩ :=
    hreads.warned w (Array.mem_toList_iff.mp hw)
  refine ⟨before, after, rfl, hposition, ?_⟩
  -- the parse without passes that has read the same
  obtain ⟨plain, hoff, hinStep⟩ := hlive.exists_plain
  obtain ⟨hinstructions, hoffset⟩ := hoff.instructions
  obtain ⟨base, b, hreplays, hb, hsum⟩ := hinStep.builders.replayed
  rw [hinstructions] at hreplays
  rw [← hb] at hdead
  have hsplit : n.program = Language.plain 0 (symbolsOf before) ++ .enter plain.builder.offset ::
      Language.plain 0 (symbolsOf after) := by
    rw [eq_plain_of_parse_off hplain, symbolsOf_append, Language.plain_append, hoffset]
    rfl
  refine Nest.neverRuns_of_isDead hsplit hreplays ?_
  rw [Arithmetic.exact_add] at hsum
  rw [← hsum]
  exact hdead

/-- The loop `[.]` of `+[-][.]` is started on a cell that the loop before it has cleared. -/
theorem parse_warnings_sound_of_second_loop :
    ∃ before after, [Symbol.increment, .loopStart, .decrement, .loopEnd, .loopStart, .output,
        .loopEnd].map Symbol.byte = before ++ Symbol.loopStart.byte :: after ∧
      positionAfter before = ⟨1, 5⟩ ∧
      Bytecode.NeverRuns [3, 0, 1, 5, 0, 6, 3, 0, -1, 6, 0, 6, 5, 0, 5, 2, 0, 6, 0, 5]
        (Language.plain 0 (symbolsOf before)).width := by
  obtain ⟨plain, ws', code, hplain, hcode, hwarned⟩ :=
    @parse_warnings_sound .all ([Symbol.increment, .loopStart, .decrement, .loopEnd, .loopStart,
      .output, .loopEnd].map Symbol.byte) _ _ rfl
  obtain ⟨rfl, rfl⟩ := Prod.mk.inj (Except.ok.inj hplain)
  obtain rfl := Except.ok.inj hcode
  obtain ⟨before, after, hsource, hposition, hnever⟩ := hwarned ⟨⟨1, 5⟩⟩ (by decide)
  exact ⟨before, after, hsource, hposition.symm, hnever⟩

end Tapecode
