import Tapecode.Proofs.Bounds

/-!
# A longer tape makes no difference to a run that fits

`Machine.widen k m` is the machine `m` with `k` more cells at the end of its tape, all of them zero.
A cell of the shorter tape is a cell of the longer one and has the same value, and an address before
the first cell is on neither. So the two machines go on alike until the shorter one asks for a cell
beyond its end: first a single instruction (`Machine.perform_widen`), then a step
(`Machine.step_widen`), then a run (`Machine.advance_widen`).

`executes_of_longer_tape` is the result for whole executions, with and without an end.
-/

namespace Tapecode

/-- The machine with `k` more cells, which are zero. -/
def Machine.widen (k : Nat) (m : Machine) : Machine :=
  { m with tape := m.tape ++ Array.replicate k 0 }

/-- The run with `k` more cells, which are zero. -/
def Progress.widen (k : Nat) : Progress → Progress
  | .running m => .running (m.widen k)
  | .halted fault m => .halted fault (m.widen k)

/-- A run that has not been ended for want of a cell after the last one of `cells`. -/
def Progress.Fits (cells : Nat) : Progress → Prop
  | .running _ => True
  | .halted fault _ => ∀ cell, fault = some (.tapeOutOfBounds cell) → cell < cells

namespace Machine

variable {m : Machine} (k : Nat)

/-! ## Instructions -/

theorem value_widen {i : Nat} (hi : i < m.tape.size) : (m.widen k).value i = m.value i := by
  simp [value, widen, Array.getElem?_append_left hi]

theorem store_widen {i : Nat} (hi : i < m.tape.size) (v : UInt8) :
    (m.widen k).store i v = (m.store i v).widen k := by
  simp [store, widen, Array.setIfInBounds_append_left hi]

theorem jump_widen (size : Nat) (target : Int) :
    (m.widen k).jump size target = (m.jump size target).widen k := by
  unfold jump
  split <;> rfl

/-- An instruction on a cell of the shorter tape does the same on the longer one. -/
theorem perform_widen (size : Nat) (eof : EofPolicy) {i : Nat} (hi : i < m.tape.size) (op : Op) :
    (m.widen k).perform size eof i op = (m.perform size eof i op).widen k := by
  cases op with
  | change o x =>
    simp only [perform, value_widen k hi, store_widen k hi]
    rfl
  | set o x =>
    simp only [perform, store_widen k hi]
    rfl
  | input o =>
    rcases hread : m.console.readByte with ⟨result, console⟩
    have hread' : (m.widen k).console.readByte = (result, console) := hread
    have hstore (v : UInt8) := store_widen (m := { m with console }) k hi v
    simp only [perform, readInto, hread, hread']
    split
    · exact congrArg (skip · 2) (hstore _)
    · exact congrArg (skip · 2) (hstore _)
    · rfl
    · rfl
  | output o =>
    rcases hpush : m.console.push (m.value i) with ⟨result, console⟩
    have hpush' : (m.widen k).console.push (m.value i) = (result, console) := hpush
    simp only [perform, writeFrom, value_widen k hi, hpush, hpush']
    split <;> rfl
  | jumpIfZero o x =>
    simp only [perform, value_widen k hi]
    split
    · exact jump_widen (m := m.moveTo i) k size _
    · rfl
  | jumpIfNotZero o x =>
    simp only [perform, value_widen k hi]
    split
    · rfl
    · exact jump_widen (m := m.moveTo i) k size _

/-! ## Steps and runs -/

/-- An address is found alike on both tapes, unless it is beyond the end of the shorter one. -/
theorem locate_of_le {cells cells' : Nat} (hle : cells ≤ cells') {target : Int}
    (h : ∀ cell, locate cells target = .error (.tapeOutOfBounds cell) → cell < cells) :
    locate cells' target = locate cells target := by
  unfold locate at h ⊢
  cases hchecked : Word.checked target with
  | none => rfl
  | some t =>
    obtain ⟨rfl, -⟩ := Word.checked_eq_some_iff.mp hchecked
    simp only [hchecked] at h
    have hsame : ((0 : Int) ≤ target ∧ target < (cells' : Int)) ↔
        ((0 : Int) ≤ target ∧ target < (cells : Int)) := by
      by_cases hin : (0 : Int) ≤ target ∧ target < (cells : Int)
      · omega
      · have hlt := h target (if_neg hin)
        omega
    exact if_congr hsame rfl rfl

variable {code : Array Word} {settings : Settings} {cells : Nat}

theorem plan_widen (h : ∀ cell, m.plan code settings = .miss (.tapeOutOfBounds cell) →
    cell < m.tape.size) : (m.widen k).plan code settings = m.plan code settings := by
  have hcounter : (m.widen k).counter = m.counter := rfl
  have hsteps : (m.widen k).steps = m.steps := rfl
  simp only [plan, hcounter, hsteps] at h ⊢
  split
  · rfl
  · rfl
  · rfl
  · rename_i word op hword hcut hfetch
    have hcell : (m.widen k).cell op.offset = m.cell op.offset := by
      apply locate_of_le (by simp [widen])
      intro cell hmiss
      have hmiss' : m.cell op.offset = .error (.tapeOutOfBounds cell) := hmiss
      exact h cell (by simp only [hword, hcut, hfetch, hmiss'])
    rw [hcell]

/-- **A step does the same on the longer tape**, unless the shorter one lacks the cell. -/
theorem step_widen (hm : m.InBounds code.size cells) (h : (m.step code settings).Fits cells) :
    (m.widen k).step code settings = (m.step code settings).widen k := by
  have hplan : (m.widen k).plan code settings = m.plan code settings := by
    apply plan_widen
    intro cell hmiss
    rw [step_eq_plan, hmiss] at h
    rw [hm.tape]
    exact h cell rfl
  rw [step_eq_plan, step_eq_plan, hplan]
  cases hcarry : m.plan code settings with
  | stop fault => rfl
  | miss fault => rfl
  | carryOut i op =>
    have hi : i < m.tape.size := (locate_eq_ok (of_plan_carryOut hcarry).2).1
    exact perform_widen (m := m.counted) k code.size settings.eof hi op

/-- **A run does the same on the longer tape**, unless the shorter one lacks a cell. -/
theorem advance_widen (hm : m.InBounds code.size cells) (cells' n : Nat)
    (h : (advance code settings n m).Fits cells) :
    advance code { settings with tapeSize := cells' } n (m.widen k) =
      (advance code settings n m).widen k := by
  induction n generalizing m with
  | zero => rfl
  | succ n ih =>
    have hnext := hm.step settings
    have hsame : (m.widen k).step code { settings with tapeSize := cells' } =
        (m.widen k).step code settings := rfl
    rw [advance] at h
    rw [advance, advance, hsame]
    cases hstep : m.step code settings with
    | running m' =>
      rw [step_widen k hm (by rw [hstep]; trivial), hstep]
      rw [hstep] at h hnext
      exact ih hnext h
    | halted fault e =>
      rw [hstep] at h
      rw [step_widen k hm (hstep ▸ h), hstep]
      rfl

/-! ## Executions -/

theorem load_widen {settings : Settings} {cells : Nat} (hle : settings.tapeSize ≤ cells)
    (streams : Streams) :
    load { settings with tapeSize := cells } streams =
      (load settings streams).widen (cells - settings.tapeSize) := by
  simp [load, widen, Array.replicate_append_replicate, Nat.add_sub_cancel' hle]

theorem finish_widen (fault : Option Fault) :
    (m.widen k).finish fault = ((m.finish fault).1, (m.finish fault).2.widen k) := by
  rcases hflush : m.console.flush with ⟨_ | _, console⟩ <;> simp [finish, widen, hflush]

/-- If what an execution reports fits, then so does its run. -/
theorem fits_of_finish {cause fault : Option Fault} {e : Machine}
    (hfinish : e.finish cause = (fault, m))
    (h : ∀ cell, fault = some (.tapeOutOfBounds cell) → cell < cells) :
    (Progress.halted cause e).Fits cells := by
  rintro cell rfl
  rw [finish_some] at hfinish
  exact h cell (Prod.mk.inj hfinish).1.symm

end Machine

/-- **A longer tape makes no difference to a run that fits.** If an execution does not end for want of
a cell after the last one, then on a longer tape it ends in the same way, with the same pointer,
counter, steps and calls, and leaves the same tape followed by zeros. A run that is never over on a
tape is never over on a longer one. -/
theorem executes_of_longer_tape {code : Bytecode} {settings : Settings} {streams : Streams}
    {cells : Nat} (hle : settings.tapeSize ≤ cells) :
    (∀ fault m, Executes code settings streams fault m →
      (∀ cell, fault = some (.tapeOutOfBounds cell) → cell < settings.tapeSize) →
      Executes code { settings with tapeSize := cells } streams fault
        { m with tape := m.tape ++ Array.replicate (cells - settings.tapeSize) 0 }) ∧
    (Machine.RunsForever code.toArray settings (.load settings streams) →
      Machine.RunsForever code.toArray { settings with tapeSize := cells }
        (.load { settings with tapeSize := cells } streams)) := by
  have hload := Machine.inBounds_load code.toArray.size settings streams
  constructor
  · rintro fault m ⟨cause, last, ⟨n, hn⟩, hfinish⟩ hfits
    have hrun := Machine.advance_widen (cells - settings.tapeSize) hload cells n
      (hn ▸ Machine.fits_of_finish hfinish hfits)
    rw [hn, ← Machine.load_widen hle] at hrun
    refine ⟨cause, _, ⟨n, hrun⟩, ?_⟩
    rw [Machine.finish_widen, hfinish]
    rfl
  · intro hforever n
    obtain ⟨m, hm⟩ := hforever n
    have hrun := Machine.advance_widen (cells - settings.tapeSize) hload cells n
      (by rw [hm]; trivial)
    rw [hm, ← Machine.load_widen hle] at hrun
    exact ⟨_, hrun⟩

/-- The code prints a one and then moves the pointer before the first cell. -/
theorem executes_of_longer_tape_of_negative_cell :
    ∃ m, Executes ([Op.change 0 1, .output 0, .set (-1) 0].flatMap Op.words) { tapeSize := 1 } {}
        (some (.tapeOutOfBounds (-1))) m ∧
      Executes ([Op.change 0 1, .output 0, .set (-1) 0].flatMap Op.words) { tapeSize := 3 } {}
        (some (.tapeOutOfBounds (-1))) { m with tape := #[1, 0, 0] } := by
  obtain ⟨m, hexec, htape⟩ : ∃ m, Executes
      ([Op.change 0 1, .output 0, .set (-1) 0].flatMap Op.words) { tapeSize := 1 } {}
      (some (.tapeOutOfBounds (-1))) m ∧ m.tape = #[1] := ⟨_, ⟨_, _, ⟨3, rfl⟩, rfl⟩, rfl⟩
  have hlonger := (@executes_of_longer_tape _ _ _ 3 (by decide)).1 _ m hexec (by simp)
  rw [htape] at hlonger
  exact ⟨m, hexec, hlonger⟩

end Tapecode
