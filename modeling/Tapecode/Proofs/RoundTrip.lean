import Tapecode.Proofs.Decompilation
import Tapecode.Proofs.NormalForm

/-!
# Parsing what has been written

The source text of a program spells each change out in symbols that change a cell by one. A parse
reads them back into the same program, instruction by instruction, if

* no pass rewrites any of the instructions (`Program.Normal`), and
* the passes combine the symbols of each effect again (`Program.Spelled`): there are no sets, and
  where changes are not combined they are changes by one.

Then `Parse.leads_symbols` follows the parse through the symbols of each part of the program, and
no loop is dropped on the way (`Program.parse_source_eq`). Where loops are not turned into sets, a
parse holds nothing but what is spelled out (`Parse.Reads.spelled`), so each program that has been
parsed is found again from what is printed of it (`parse_sourceText_of_parse`).
-/

namespace Tapecode

/-! ## Effects that symbols spell out -/

/-- Only multiples of 256 are zero in a cell. -/
theorem ofInt_ne_zero {x : Int} (hx : x ≠ 0) (h : x.natAbs < 256) : Int8.ofInt x ≠ 0 := by
  intro hzero
  have hmod : x.bmod 256 = 0 := Int8.toInt_ofInt.symm.trans (congrArg Int8.toInt hzero)
  have hdvd := Int.dvd_of_bmod_eq_zero hmod
  omega

/-- The symbols of the effect are made into the effect again. -/
def Passes.Spells (passes : Passes) : Effect → Prop
  | .change d => d ≠ 0 ∧ (passes.combineChanges = false → d = 1 ∨ d = -1)
  | .set _ => False
  | .input | .output => True

/-- The symbols of each effect of the program are made into the effect again. -/
def Program.Spelled (passes : Passes) (p : Program) : Prop :=
  ∀ e o, .act e o ∈ p → passes.Spells e

namespace Program

variable {passes : Passes} {p q : Program} {i : Instruction}

theorem spelled_nil : Spelled passes [] := by
  simp [Spelled]

theorem spelled_append : Spelled passes (p ++ q) ↔ p.Spelled passes ∧ q.Spelled passes := by
  simp only [Spelled, List.mem_append, or_imp, forall_and]

theorem spelled_cons_act {e : Effect} {o : Int} :
    Spelled passes (.act e o :: p) ↔ passes.Spells e ∧ p.Spelled passes := by
  rw [← List.singleton_append, spelled_append]
  simp [Spelled]

theorem spelled_cons_delimiter (hi : i.isDelimiter = true) :
    Spelled passes (i :: p) ↔ p.Spelled passes := by
  rw [← List.singleton_append, spelled_append]
  cases i with
  | act e o => cases hi
  | enter o => simp [Spelled]
  | leave o => simp [Spelled]

theorem Spelled.of_subset (h : p.Spelled passes) (hq : q ⊆ p) : q.Spelled passes :=
  fun e o hmem => h e o (hq hmem)

end Program

/-! ## Parses that lead from one to the next -/

/-- A change is added to a change of the same cell, where the two do not cancel. -/
theorem Passes.emit_change_change {passes : Passes} {c d : Int8} {o : Int}
    {recent : List Instruction} (hcombine : passes.combineChanges = true) (h : c + d ≠ 0) :
    passes.emit (.change d) o (.act (.change c) o :: recent) =
      .act (.change (c + d)) o :: recent := by
  simp [emit, emitChange, hcombine, Instruction.offset, Instruction.followedBy, Effect.followedBy,
    h]

namespace Parse

/-- Reading some symbols takes one parse to another, wherever the symbols stand. -/
def Leads (p : Parse) (xs : List Symbol) (p' : Parse) : Prop :=
  ∀ position rest, ∃ position', p.run (tokenizeFrom position (xs.map Symbol.byte ++ rest)) =
    p'.run (tokenizeFrom position' rest)

namespace Leads

variable {p q r : Parse} {xs ys : List Symbol}

theorem refl (p : Parse) : p.Leads [] p :=
  fun position _ => ⟨position, rfl⟩

theorem append (h : p.Leads xs q) (h' : q.Leads ys r) : p.Leads (xs ++ ys) r := by
  intro position rest
  obtain ⟨position₁, hxs⟩ := h position (ys.map Symbol.byte ++ rest)
  obtain ⟨position₂, hys⟩ := h' position₁ rest
  exact ⟨position₂, by rw [List.map_append, List.append_assoc, hxs, hys]⟩

theorem cons {s : Symbol} {f : Position → Parse}
    (h : ∀ position, p.step s position = .ok (f position))
    (h' : ∀ position, (f position).Leads xs q) : p.Leads (s :: xs) q := by
  intro position rest
  obtain ⟨position', hxs⟩ := h' position (position.after s.byte) rest
  refine ⟨position', ?_⟩
  simp only [List.map_cons, List.cons_append, tokenizeFrom, Symbol.ofByte?_byte, Parse.run, h, hxs]

/-- A symbol that is not a bracket. -/
theorem of_call {s : Symbol} {c : Command} {b : Builder} (hs : s.command = c)
    (hstart : c ≠ .startLoop) (hend : c ≠ .endLoop) (h : p.builder.call c = (.ok (), b)) :
    p.Leads [s] { p with builder := b } := by
  subst hs
  refine .cons (fun position => ?_) fun _ => .refl _
  cases s with
  | loopStart => exact absurd rfl hstart
  | loopEnd => exact absurd rfl hend
  | increment | decrement | left | right | input | output => exact step_of_call position nofun h

end Leads

/-- The parse with other instructions since the start of the innermost open loop, and at another
offset. -/
def holding (p : Parse) (recent : List Instruction) (offset : Int) : Parse :=
  { p with builder := { p.builder with recent, offset } }

/-- The parse inside a loop that has been started at a position of the source text. -/
def inside (p : Parse) (before : List Instruction) (entry : Int) (position : Position) : Parse :=
  { p with
    builder := { p.builder with
      recent := []
      loops := ⟨before, entry⟩ :: p.builder.loops
      offset := 0 }
    opened := position :: p.opened }

namespace Leads

variable {p : Parse} (hp : p.builder.finalized = false) (recent : List Instruction) (o : Int)

include hp

theorem act {s : Symbol} {e : Effect} (hs : s.command = .act e) :
    (p.holding recent o).Leads [s] (p.holding (p.builder.passes.emit e o recent) o) :=
  of_call hs nofun nofun (Builder.call_act (b := (p.holding recent o).builder) hp e)

theorem move {s : Symbol} {d : Int} (hs : s.command = .move d) :
    (p.holding recent o).Leads [s] (p.holding recent (o + d)) :=
  of_call hs nofun nofun (Builder.call_move (b := (p.holding recent o).builder) hp d)

theorem replicate_move {s : Symbol} {d : Int} (hs : s.command = .move d) (n : Nat) :
    (p.holding recent o).Leads (List.replicate n s) (p.holding recent (o + n * d)) := by
  induction n with
  | zero => simpa using refl (p.holding recent o)
  | succ n ih =>
    rw [List.replicate_succ', Int.natCast_succ, Int.add_mul, Int.one_mul, ← Int.add_assoc]
    exact ih.append (.move hp recent _ hs)

theorem moves (here there : Int) :
    (p.holding recent here).Leads (Program.moves (there - here)) (p.holding recent there) := by
  unfold Program.moves Program.repeated
  split
  · have h := replicate_move (s := .left) hp recent here rfl (there - here).natAbs
    rwa [show here + (there - here).natAbs * -1 = there by omega] at h
  · have h := replicate_move (s := .right) hp recent here rfl (there - here).natAbs
    rwa [show here + (there - here).natAbs * 1 = there by omega] at h

variable {recent o}

/-- Unit changes add up to a change, as long as they do not cancel. -/
theorem replicate_change {s : Symbol} {z : Int} (hz : z = 1 ∨ z = -1)
    (hcombine : p.builder.passes.combineChanges = true)
    (hs : s.command = .act (.change (.ofInt z)))
    (h : p.builder.passes.emit (.change (.ofInt z)) o recent =
      .act (.change (.ofInt z)) o :: recent) {n : Nat} (hn : n < 255) :
    (p.holding recent o).Leads (List.replicate (n + 1) s)
      (p.holding (.act (.change (.ofInt ((n + 1 : Nat) * z))) o :: recent) o) := by
  induction n with
  | zero =>
    have hfirst := act hp recent o hs
    rw [h] at hfirst
    simpa using hfirst
  | succ n ih =>
    have hsum : Int8.ofInt ((n + 1 : Nat) * z) + .ofInt z = .ofInt ((n + 1 + 1 : Nat) * z) := by
      rw [← Int8.ofInt_add]
      congr 1
      rw [Int.natCast_succ (n + 1), Int.add_mul, Int.one_mul]
    have hne : Int8.ofInt ((n + 1 : Nat) * z) + .ofInt z ≠ 0 := by
      rw [hsum]
      rcases hz with rfl | rfl
      · exact ofInt_ne_zero (by omega) (by omega)
      · exact ofInt_ne_zero (by omega) (by omega)
    have hnext := act hp (.act (.change (.ofInt ((n + 1 : Nat) * z))) o :: recent) o hs
    rw [Passes.emit_change_change hcombine hne, hsum] at hnext
    rw [List.replicate_succ']
    exact (ih (by omega)).append hnext

/-- The unit changes of a change, where no pass combines them with what stands before. -/
theorem units {d : Int8} (hspells : p.builder.passes.Spells (.change d))
    (h : ∀ d', p.builder.passes.emit (.change d') o recent = .act (.change d') o :: recent) :
    (p.holding recent o).Leads (Program.units d) (p.holding (.act (.change d) o :: recent) o) := by
  obtain ⟨hne, hunit⟩ := hspells
  cases hcombine : p.builder.passes.combineChanges with
  | false =>
    rcases hunit hcombine with rfl | rfl
    · exact h 1 ▸ act (s := .increment) hp recent o rfl
    · exact h (-1) ▸ act (s := .decrement) hp recent o rfl
  | true =>
    -- a change is by at most 128, so the units never go round to zero
    have hint : d.toInt ≠ 0 := fun hzero => hne (Int8.toInt_inj.mp hzero)
    have hle := d.le_toInt
    have hlt := d.toInt_lt
    obtain ⟨n, hn⟩ := Nat.exists_eq_succ_of_ne_zero (Int.natAbs_ne_zero.mpr hint)
    unfold Program.units Program.repeated
    rw [hn]
    split
    · have hunits := replicate_change (s := .decrement) (z := -1) hp (.inr rfl) hcombine rfl (h _)
        (n := n) (by omega)
      rwa [show ((n + 1 : Nat) : Int) * -1 = d.toInt by omega, Int8.ofInt_toInt] at hunits
    · have hunits := replicate_change (s := .increment) (z := 1) hp (.inl rfl) hcombine rfl (h _)
        (n := n) (by omega)
      rwa [show ((n + 1 : Nat) : Int) * 1 = d.toInt by omega, Int8.ofInt_toInt] at hunits

/-- The symbols of an effect that no pass rewrites. -/
theorem symbolsAt {e : Effect} (hspells : p.builder.passes.Spells e)
    (h : p.builder.passes.rewrites (Builder.unwind recent p.builder.loops) (.act e o) = false) :
    (p.holding recent o).Leads (Program.symbolsAt (.act e o))
      (p.holding (.act e o :: recent) o) := by
  rw [Builder.unwind_eq] at h
  cases e with
  | set v => exact hspells.elim
  | input => exact Passes.emit_of_not_rewrites h ▸ act (s := .input) hp recent o rfl
  | output => exact act (s := .output) hp recent o rfl
  | change d => exact units hp hspells fun d' => Passes.emit_of_not_rewrites (e := .change d') h

/-- A loop that no pass rewrites. Where it starts is forgotten when it ends. -/
theorem loop {entry exit : Int} {n : Nest} {xs : List Symbol}
    (hbody : ∀ position, (p.inside recent entry position).Leads xs
      ((p.inside recent entry position).holding n.backwards exit))
    (henter : p.builder.passes.rewrites (Builder.unwind recent p.builder.loops) (.enter entry) =
      false)
    (hleave : p.builder.passes.rewrites
      (n.backwards ++ .enter entry :: Builder.unwind recent p.builder.loops) (.leave exit) =
      false) :
    (p.holding recent entry).Leads (.loopStart :: (xs ++ [.loopEnd]))
      (p.holding (.leave exit :: (n.backwards ++ .enter entry :: recent)) 0) := by
  have hstart (position : Position) : (p.holding recent entry).step .loopStart position =
      .ok (p.inside recent entry position) :=
    step_of_call position nofun
      (Builder.call_startLoop (b := (p.holding recent entry).builder) hp)
  have hend (position position' : Position) :
      ((p.inside recent entry position).holding n.backwards exit).step .loopEnd position' =
        .ok (p.holding (.leave exit :: (n.backwards ++ .enter entry :: recent)) 0) := by
    have hkept := Builder.endLoop_of_not_rewrites
      (b := ((p.inside recent entry position).holding n.backwards exit).builder) hp rfl rfl henter
      hleave
    simp only [Parse.step, holding, inside] at hkept ⊢
    rw [hkept]
    rfl
  exact .cons hstart fun position =>
    (hbody position).append (.cons (hend position) fun _ => .refl _)

end Leads

end Parse

/-! ## The symbols of a program -/

theorem Symbol.utf8EncodeChar_char (s : Symbol) : String.utf8EncodeChar s.char = [s.byte] := by
  cases s <;> rfl

namespace Program

/-- The source text is printed in the bytes that it consists of. -/
theorem toUTF8_sourceText (p : Program) : p.sourceText.toUTF8.data.toList = p.source := by
  simpa [sourceText, source, List.utf8Encode, List.flatMap_map, Symbol.utf8EncodeChar_char]
    using List.map_eq_flatMap.symm

/-- The offset at which the pointer stands after the symbols of a program. -/
def standing (here : Int) : Program → Int
  | [] => here
  | i :: rest => standing (settled i) rest

theorem symbolsFrom_append (here : Int) (p q : Program) :
    symbolsFrom here (p ++ q) = symbolsFrom here p ++ symbolsFrom (standing here p) q := by
  induction p generalizing here with
  | nil => rfl
  | cons i rest ih => simp only [List.cons_append, symbolsFrom, ih, standing, List.append_assoc]

theorem standing_append (here : Int) (p q : Program) :
    standing here (p ++ q) = standing (standing here p) q := by
  induction p generalizing here with
  | nil => rfl
  | cons i rest ih => exact ih (settled i)

theorem symbolsFrom_loop (here entry exit : Int) (body rest : Nest) :
    symbolsFrom here (Nest.loop entry body exit rest).program =
      moves (entry - here) ++ .loopStart :: (symbolsFrom 0 body.program ++
        moves (exit - standing 0 body.program) ++ [.loopEnd]) ++ symbolsFrom 0 rest.program := by
  simp [Nest.program, symbolsFrom, symbolsFrom_append, symbolsAt, settled, Instruction.isDelimiter,
    Instruction.offset]

theorem standing_loop (here entry exit : Int) (body rest : Nest) :
    standing here (Nest.loop entry body exit rest).program = standing 0 rest.program := by
  simp [Nest.program, standing, standing_append, settled, Instruction.isDelimiter]

end Program

/-- **The symbols of a nest put it together again**, if no pass rewrites it and its effects are
spelled out. No loop is dropped. -/
theorem Parse.leads_symbols (n : Nest) {p : Parse} (hp : p.builder.finalized = false)
    (recent : List Instruction) (here : Int)
    (hspelled : Program.Spelled p.builder.passes n.program)
    (hnormal : p.builder.passes.Normal (Builder.unwind recent p.builder.loops) n.backwards) :
    (p.holding recent here).Leads (Program.symbolsFrom here n.program)
      (p.holding (n.backwards ++ recent) (Program.standing here n.program)) := by
  induction n generalizing p recent here with
  | done => exact .refl _
  | act e o rest ih =>
    obtain ⟨hact, hrest⟩ := Passes.normal_act.mp hnormal
    obtain ⟨hspells, hspelled⟩ := Program.spelled_cons_act.mp hspelled
    have hlater := ih hp (.act e o :: recent) o hspelled
      (by rwa [← List.singleton_append, Builder.unwind_append])
    rw [Nest.backwards_act, List.append_assoc]
    exact ((Leads.moves hp recent here o).append (.symbolsAt hp hspells hact)).append hlater
  | loop entry body exit rest ihBody ihRest =>
    obtain ⟨henter, hbody, hleave, hrest⟩ := Passes.normal_loop.mp hnormal
    have hspelled := (Program.spelled_cons_delimiter rfl).mp hspelled
    obtain ⟨hspelledBody, hspelledRest⟩ := Program.spelled_append.mp hspelled
    have hspelledRest := (Program.spelled_cons_delimiter rfl).mp hspelledRest
    have hinside (position : Position) : (p.inside recent entry position).Leads
        (Program.symbolsFrom 0 body.program ++
          Program.moves (exit - Program.standing 0 body.program))
        ((p.inside recent entry position).holding body.backwards exit) := by
      have hsymbols := ihBody (p := p.inside recent entry position) hp [] 0 hspelledBody hbody
      rw [List.append_nil] at hsymbols
      exact hsymbols.append (.moves (p := p.inside recent entry position) hp _ _ exit)
    have hloop := Leads.loop hp hinside henter hleave
    have hlater := ihRest hp (.leave exit :: (body.backwards ++ .enter entry :: recent)) 0
      hspelledRest (by simpa [Builder.unwind_eq] using hrest)
    rw [Program.symbolsFrom_loop, Program.standing_loop, Nest.backwards_loop]
    simpa using ((Leads.moves hp recent here entry).append hloop).append hlater

/-- **The source text of a balanced program is parsed to the program**, without warnings, if no pass
rewrites it and its effects are spelled out. -/
theorem Program.parse_source_eq {passes : Passes} {p : Program} (hbalanced : p.Balanced)
    (hnormal : p.Normal passes) (hspelled : p.Spelled passes) :
    parse passes p.source = .ok (p, []) := by
  obtain ⟨n, rfl⟩ := hbalanced
  obtain ⟨position, hrun⟩ :=
    Parse.leads_symbols n (p := .start passes) rfl [] 0 hspelled hnormal .start []
  rw [List.append_nil, List.append_nil] at hrun
  refine hrun.trans ?_
  simp [tokenizeFrom, Parse.run, Parse.finish, Parse.holding, Parse.start, Builder.finalize,
    Builder.canFinalize, Builder.instructions, Builder.unwind, Nest.backwards]

/-! ## What a parse holds -/

/-- Symbols spell themselves out. -/
theorem Symbol.spells {s : Symbol} {e : Effect} (passes : Passes) (hs : s.command = .act e) :
    passes.Spells e := by
  cases s with
  | increment =>
    cases hs
    exact ⟨by decide, fun _ => .inl rfl⟩
  | decrement =>
    cases hs
    exact ⟨by decide, fun _ => .inr rfl⟩
  | input | output =>
    cases hs
    trivial
  | left | right | loopStart | loopEnd => cases hs

namespace Passes

variable {passes : Passes} {recent : List Instruction}

/-- What is left of a change that another follows is spelled out. -/
theorem spelled_of_followedBy {i : Instruction} {d : Int8} {merged : List Instruction}
    (hcombine : passes.combineChanges = true) (hi : Program.Spelled passes [i])
    (h : i.followedBy d = some merged) : Program.Spelled passes merged := by
  cases i with
  | enter o => cases h
  | leave o => cases h
  | act w o =>
    cases w with
    | input => cases h
    | output => cases h
    | set v => exact (Program.spelled_cons_act.mp hi).1.elim
    | change c =>
      simp only [Instruction.followedBy, Effect.followedBy, Option.map_some, Option.some.injEq] at h
      split at h
      · subst h
        exact Program.spelled_nil
      · rename_i hsum
        subst h
        exact Program.spelled_cons_act.mpr ⟨⟨hsum, by simp [hcombine]⟩, Program.spelled_nil⟩

/-- An effect that is spelled out leaves what is spelled out, whatever it is combined with. -/
theorem spelled_emit {e : Effect} {o : Int} (he : passes.Spells e)
    (h : Program.Spelled passes recent) : Program.Spelled passes (passes.emit e o recent) := by
  have happend : Program.Spelled passes (.act e o :: recent) :=
    Program.spelled_cons_act.mpr ⟨he, h⟩
  cases e with
  | set v => exact he.elim
  | output => exact happend
  | input =>
    refine Program.spelled_cons_act.mpr ⟨he, ?_⟩
    split
    · exact h.of_subset (List.dropWhile_subset _)
    · exact h
  | change d =>
    cases recent with
    | nil => exact happend
    | cons last older =>
      rw [emit, emitChange]
      by_cases hcombine : (passes.combineChanges && last.offset == o) = true
      · rw [if_pos hcombine]
        cases hmerged : last.followedBy d with
        | none => exact happend
        | some merged =>
          obtain ⟨hlast, holder⟩ := Program.spelled_append (p := [last]).mp h
          have hc := (Bool.and_eq_true_iff.mp hcombine).1
          exact Program.spelled_append.mpr ⟨spelled_of_followedBy hc hlast hmerged, holder⟩
      · rw [if_neg hcombine]
        exact happend

end Passes

/-- Where loops are not turned into sets, every command leaves what is spelled out. -/
theorem Builder.spelled_call {b b' : Builder} {c : Command} (hb : b.finalized = false)
    (hclear : b.passes.clearLoops = false) (hc : ∀ e, c = .act e → b.passes.Spells e)
    (h : Program.Spelled b.passes (unwind b.recent b.loops)) (hcall : b.call c = (.ok (), b')) :
    Program.Spelled b.passes (unwind b'.recent b'.loops) := by
  rcases call_inv hb hcall with
    ⟨e, rfl, rfl⟩ | ⟨distance, rfl, rfl⟩ | ⟨rfl, rfl⟩ | ⟨l, outer, fate, rfl, hloops, hend⟩
  · rw [unwind_eq, Program.spelled_append] at h ⊢
    exact ⟨Passes.spelled_emit (hc e rfl) h.1, h.2⟩
  · exact h
  · exact (Program.spelled_cons_delimiter rfl).mpr h
  · rw [hloops] at h
    rcases endLoop_cases hb hloops with ⟨-, hend'⟩ | ⟨-, hclears, -⟩ | ⟨-, -, hend'⟩
    · obtain rfl := (Prod.mk.inj (hend.symm.trans hend')).2
      exact h.of_subset (by simp [unwind])
    · simp [hclear] at hclears
    · obtain rfl := (Prod.mk.inj (hend.symm.trans hend')).2
      rw [unwind_leave, Program.spelled_cons_delimiter rfl]
      exact h

/-- What a parse holds is spelled out. -/
theorem Parse.Reads.spelled {passes : Passes} (hclear : passes.clearLoops = false)
    {bytes : List UInt8} {p : Parse} (h : Reads passes bytes p) :
    Program.Spelled passes (Builder.unwind p.builder.recent p.builder.loops) := by
  induction h with
  | start => exact Program.spelled_nil
  | comment _ _ ih => exact ih
  | symbol hreads _ hstep ih =>
    obtain ⟨hsound, hpasses⟩ := hreads.sound
    obtain ⟨p', hstep', hcall, -⟩ := hsound.step _ (opened_ne_nil_of_step hstep)
    obtain rfl := Except.ok.inj (hstep.symm.trans hstep')
    subst hpasses
    exact Builder.spelled_call hsound.unfinished hclear (fun _ => Symbol.spells _) ih hcall

/-- **Parsing undoes printing the source text**, where loops are not turned into sets: what is
printed of a program that has been parsed is parsed to the same program, without warnings. -/
theorem parse_sourceText_of_parse {passes : Passes} (hclear : passes.clearLoops = false)
    {source : List UInt8} {program : Program} {ws : List Warning}
    (h : parse passes source = .ok (program, ws)) :
    parse passes program.sourceText.toUTF8.data.toList = .ok (program, []) := by
  obtain ⟨plain, -, hoptimize⟩ := exists_plain_of_parse h
  obtain ⟨hbalanced, hnormal⟩ := Program.normal_of_optimize hoptimize
  obtain ⟨last, hreads, -, rfl, -⟩ := Parse.Reads.of_parse h
  rw [Program.toUTF8_sourceText]
  refine Program.parse_source_eq hbalanced hnormal ?_
  exact (hreads.spelled hclear).of_subset fun _ => List.mem_reverse.mp

/-- A source text with a loop that can never run, 128 increments, two changes that cancel, and a
loop on another cell. -/
theorem parse_sourceText_of_parse_of_dead_loop :
    ∃ program, parse { clearLoops := false } (List.map Symbol.byte (List.flatten [
        [.loopStart, .output, .loopEnd], List.replicate 128 .increment, [.right, .increment,
        .decrement, .loopStart, .decrement, .right, .loopEnd, .left, .input]])) =
          .ok (program, [⟨.start⟩]) ∧
      program = [.act (.change (-128)) 0, .enter 1, .act (.change (-1)) 0, .leave 1,
        .act .input (-1)] ∧
      parse { clearLoops := false } program.sourceText.toUTF8.data.toList = .ok (program, []) := by
  have hparse : parse { clearLoops := false } (List.map Symbol.byte (List.flatten [
      [.loopStart, .output, .loopEnd], List.replicate 128 .increment, [.right, .increment,
      .decrement, .loopStart, .decrement, .right, .loopEnd, .left, .input]])) =
        .ok ([.act (.change (-128)) 0, .enter 1, .act (.change (-1)) 0, .leave 1,
          .act .input (-1)], [⟨.start⟩]) := by
    decide +kernel
  exact ⟨_, hparse, rfl, parse_sourceText_of_parse rfl hparse⟩

end Tapecode
