import Tapecode.Proofs.Parsing

/-!
# What a parse has read

`Parse.Reads passes bytes p` says that a parse with some passes has come to `p` once it has read
`bytes`. A source text that parses has been read to its end (`Parse.Reads.of_parse`), and what holds
of every parse on its way is proved by induction on `Parse.Reads`.

* Beside every parse with passes there is one without that has read the same
  (`Parse.Reads.exists_plain`).
* A parse without passes has written down the plain instructions of what it has read
  (`Parse.Reads.instructions`).
-/

namespace Tapecode

/-- The position behind some bytes. -/
def positionAfter (bytes : List UInt8) : Position :=
  bytes.foldl Position.after .start

theorem positionAfter_concat (bytes : List UInt8) (b : UInt8) :
    positionAfter (bytes ++ [b]) = (positionAfter bytes).after b := by
  rw [positionAfter, List.foldl_append]
  rfl

theorem symbolsOf_append (xs ys : List UInt8) :
    symbolsOf (xs ++ ys) = symbolsOf xs ++ symbolsOf ys :=
  List.filterMap_append

theorem symbolsOf_concat_of_none {b : UInt8} (hb : Symbol.ofByte? b = none) (bytes : List UInt8) :
    symbolsOf (bytes ++ [b]) = symbolsOf bytes := by
  simp [symbolsOf, hb]

theorem symbolsOf_concat_of_some {b : UInt8} {s : Symbol} (hb : Symbol.ofByte? b = some s)
    (bytes : List UInt8) : symbolsOf (bytes ++ [b]) = symbolsOf bytes ++ [s] := by
  simp [symbolsOf, hb]

namespace Parse

/-- The parse that has read some bytes. -/
inductive Reads (passes : Passes) : List UInt8 → Parse → Prop
  | start : Reads passes [] (.start passes)
  | comment {bytes : List UInt8} {p : Parse} {b : UInt8} (h : Reads passes bytes p)
      (hb : Symbol.ofByte? b = none) : Reads passes (bytes ++ [b]) p
  | symbol {bytes : List UInt8} {p p' : Parse} {b : UInt8} {s : Symbol} (h : Reads passes bytes p)
      (hb : Symbol.ofByte? b = some s) (hstep : p.step s (positionAfter bytes) = .ok p') :
      Reads passes (bytes ++ [b]) p'

/-- A loop end is only taken where a loop is open. -/
theorem opened_ne_nil_of_step {p p' : Parse} {s : Symbol} {position : Position}
    (h : p.step s position = .ok p') : s = .loopEnd → p.opened ≠ [] := by
  rintro rfl hopened
  rw [step_loopEnd_of_opened_eq_nil position hopened] at h
  cases h

namespace Reads

variable {passes : Passes} {bytes : List UInt8} {p : Parse}

theorem sound (h : Reads passes bytes p) : p.Sound ∧ p.builder.passes = passes := by
  induction h with
  | start => exact ⟨.start passes, rfl⟩
  | comment _ _ ih => exact ih
  | symbol _ _ hstep ih =>
    obtain ⟨p', hstep', -, -, hpasses, hsound⟩ := ih.1.step _ (opened_ne_nil_of_step hstep)
    obtain rfl := Except.ok.inj (hstep.symm.trans hstep')
    exact ⟨hsound, hpasses.trans ih.2⟩

/-- **Beside every parse there is one without passes** that has read the same. -/
theorem exists_plain {live : Parse} (h : Reads passes bytes live) :
    ∃ plain, Reads .off bytes plain ∧ InStep .exact plain live := by
  induction h with
  | start => exact ⟨_, .start, .start .exact passes⟩
  | comment _ hb ih =>
    obtain ⟨plain, hreads, hinStep⟩ := ih
    exact ⟨plain, hreads.comment hb, hinStep⟩
  | symbol _ hb hstep ih =>
    obtain ⟨plain, hreads, hinStep⟩ := ih
    obtain ⟨plain', live', hplain, hlive, -, hinStep'⟩ :=
      hinStep.step _ (hinStep.opened ▸ opened_ne_nil_of_step hstep)
    obtain rfl := Except.ok.inj (hstep.symm.trans hlive)
    exact ⟨plain', hreads.symbol hb hplain, hinStep'⟩

/-- **A parse without passes has written down the plain instructions** of what it has read. -/
theorem instructions (h : Reads .off bytes p) :
    p.builder.instructions = Language.plain 0 (symbolsOf bytes) ∧
      p.builder.offset = Language.drift 0 (symbolsOf bytes) := by
  generalize hoff : Passes.off = off at h
  induction h with
  | start => exact ⟨rfl, rfl⟩
  | comment _ hb ih =>
    rw [symbolsOf_concat_of_none hb]
    exact ih
  | symbol hreads hb hstep ih =>
    subst hoff
    obtain ⟨hsound, hpasses⟩ := hreads.sound
    obtain ⟨p', hstep', hcall, -⟩ := hsound.step _ (opened_ne_nil_of_step hstep)
    obtain rfl := Except.ok.inj (hstep.symm.trans hstep')
    obtain ⟨hinstructions, hoffset⟩ := Builder.call_off hsound.unfinished hpasses hcall
    rw [symbolsOf_concat_of_some hb, Language.plain_append, Language.drift_append, hinstructions,
      hoffset, ih.1, ih.2]
    simp [Language.plain, Language.drift]

/-- The rest of a parse that succeeds. -/
theorem run (h : Reads passes bytes p) (rest : List UInt8) {program : Program} {ws : List Warning}
    (hrun : p.run (tokenizeFrom (positionAfter bytes) rest) = .ok (program, ws)) :
    ∃ last, Reads passes (bytes ++ rest) last ∧ last.opened = [] ∧
      last.builder.instructions = program ∧ last.warnings.toList = ws := by
  induction rest generalizing bytes p with
  | nil =>
    simp only [tokenizeFrom, Parse.run, Parse.finish] at hrun
    rcases hopened : p.opened with _ | ⟨l, outer⟩
    · have hloops := h.sound.1.loops_eq_nil_iff.mpr hopened
      simp only [hopened, Builder.finalize_of_loops_eq_nil h.sound.1.unfinished hloops] at hrun
      obtain ⟨hprogram, hws⟩ := Prod.mk.inj (Except.ok.inj hrun)
      exact ⟨p, by rwa [List.append_nil], hopened, hprogram, hws⟩
    · simp only [hopened] at hrun
      cases hrun
  | cons b rest ih =>
    rw [List.append_cons]
    cases hb : Symbol.ofByte? b with
    | none =>
      simp only [tokenizeFrom, hb] at hrun
      exact ih (h.comment hb) (by rwa [positionAfter_concat])
    | some s =>
      simp only [tokenizeFrom, hb, Parse.run] at hrun
      cases hstep : p.step s (positionAfter bytes) with
      | error e =>
        simp only [hstep] at hrun
        cases hrun
      | ok p' =>
        simp only [hstep] at hrun
        exact ih (h.symbol hb hstep) (by rwa [positionAfter_concat])

/-- **A source text that parses has been read to its end.** -/
theorem of_parse {source : List UInt8} {program : Program} {ws : List Warning}
    (h : parse passes source = .ok (program, ws)) :
    ∃ last, Reads passes source last ∧ last.opened = [] ∧
      last.builder.instructions = program ∧ last.warnings.toList = ws :=
  Reads.start.run source h

end Reads

end Parse

/-- Without passes, a source text that parses is parsed to its plain instructions. -/
theorem eq_plain_of_parse_off {source : List UInt8} {plain : Program} {ws : List Warning}
    (h : parse .off source = .ok (plain, ws)) : plain = Language.plain 0 (symbolsOf source) := by
  obtain ⟨last, hreads, -, rfl, -⟩ := Parse.Reads.of_parse h
  exact hreads.instructions.1

end Tapecode
