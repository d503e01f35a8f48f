import Mathlib.Tactic.Common
import Tapecode.Proofs.Refinement

/-!
# Rewriting the end of a program

`Absorbs Pre P base A Q base'` says that `Q` does the work of `P` and of the piece `A` that follows
it, in runs that are started in a state for which `Pre` holds. The offsets of `A` count from `base`
cells to the right of where `P` leaves the pointer, and afterwards offsets count from `base'` cells
to the right of where `Q` leaves it.

A piece can always be appended (`Absorbs.append`). The rules by which it need not be are these.

* A change of a cell that has just been written is merged into the write, or cancels it
  (`Absorbs.merge`, `Absorbs.cancel`).
* A write of a cell that is then overwritten is dropped (`Absorbs.overwrite`).
* A loop whose cell is zero on entry is dropped (`Absorbs.skip`).
* A loop that does nothing but count its own cell is a store of zero (`Refines.clear`).
-/

namespace Tapecode

open Machine Behaviour

/-- `Q` does the work of `P` and of the piece `A` that follows it. -/
structure Absorbs (Pre : State → Prop) (P : Behaviour) (base : Int) (A Q : Behaviour)
    (base' : Int) : Prop where
  /-- Where `P` ends with a fault, so does `Q`. -/
  fault : ∀ start cause t, Pre start → P start (.fault cause t) → cause.isBound = false →
    ∃ t', Q start (.fault cause t') ∧ t'.console = t.console
  /-- Where `P` does not, `Q` ends as `A` does. -/
  done : ∀ start mid s r, Pre start → P start (.done mid) → Related base s mid → A s r → r.Within →
    ∃ r', Q start r' ∧ Matches base' r r'

namespace Absorbs

variable {Pre : State → Prop} {P Q R A B : Behaviour} {k l m : Int}

theorem nil : Absorbs Pre P k (of .done) P k where
  fault _ _ t _ hP _ := ⟨t, hP, rfl⟩
  done _ mid s r _ hP hrel hA _ := by
    obtain rfl : Outcome.done s = r := hA
    exact ⟨.done mid, hP, hrel⟩

theorem append (h : Refines k l A B) : Absorbs Pre P k A (P.seq B) l where
  fault _ _ t _ hP _ := ⟨t, seq_fault hP, rfl⟩
  done _ mid s r _ hP hrel hA hwithin := by
    obtain ⟨r', hB, hmatch⟩ := h s mid r hrel hA hwithin
    exact ⟨r', seq_done hP hB, hmatch⟩

theorem trans (h : Absorbs Pre P k A Q l) (h' : Absorbs Pre Q l B R m) :
    Absorbs Pre P k (A.seq B) R m where
  fault start cause t hpre hP hbound := by
    obtain ⟨t', hQ, hconsole⟩ := h.fault start cause t hpre hP hbound
    obtain ⟨t'', hR, hconsole'⟩ := h'.fault start cause t' hpre hQ hbound
    exact ⟨t'', hR, hconsole'.trans hconsole⟩
  done start mid s r hpre hP hrel hAB hwithin := by
    rcases seq_inv hAB with ⟨cause, t, hA, rfl⟩ | ⟨t, hA, hB⟩
    · obtain ⟨r', hQ, hmatch⟩ := h.done start mid s _ hpre hP hrel hA hwithin
      obtain ⟨t', rfl, hconsole⟩ := hmatch.exists_fault
      obtain ⟨t'', hR, hconsole'⟩ := h'.fault start cause t' hpre hQ hwithin
      exact ⟨_, hR, rfl, hconsole'.trans hconsole⟩
    · obtain ⟨r', hQ, hmatch⟩ := h.done start mid s _ hpre hP hrel hA trivial
      obtain ⟨t', rfl, hrel'⟩ := hmatch.exists_done
      exact h'.done start t' t r hpre hQ hrel' hB hwithin

/-- A piece may be replaced by one that refines it before it is absorbed. -/
theorem of_refines (h : Refines 0 m A B) (h' : Absorbs Pre P k B Q l) :
    Absorbs Pre P k A Q (l + m) where
  fault := h'.fault
  done start mid s r hpre hP hrel hA hwithin := by
    obtain ⟨r', hB, hmatch⟩ := h s s r (.refl s) hA hwithin
    obtain ⟨r'', hQ, hmatch'⟩ := h'.done start mid s r' hpre hP hrel hB (hmatch.within hwithin)
    exact ⟨r'', hQ, hmatch.trans hmatch'⟩

/-- What follows nothing at all is refined by what absorbs it. -/
theorem refines (hpre : ∀ s, Pre s) (h : Absorbs Pre (of .done) 0 A Q l) : Refines 0 l A Q :=
  fun s t r hrel hA hwithin => h.done t t s r (hpre t) rfl hrel hA hwithin

end Absorbs

/-! ## Writes -/

/-- What a write leaves in a cell that held `old`. -/
def Effect.written (old : UInt8) : Effect → UInt8
  | set v => Word.byte v.toInt
  | change d => old + Word.byte d.toInt
  | input | output => old

/-- Effects that replace the value of their cell, whatever it was. -/
def Effect.isStore : Effect → Bool
  | set _ | input => true
  | change _ | output => false

theorem Effect.perform_of_isWrite {e : Effect} (h : e.isWrite = true) (eof : EofPolicy) (s : State)
    (i : Nat) : e.perform eof s i = .done (s.store i (e.written (s.value i))) := by
  cases e with
  | set v => rfl
  | change d => rfl
  | input => cases h
  | output => cases h

/-- A write has no fault but one of a bound, and changes no cell but its own. -/
theorem Effect.run_of_isWrite {e : Effect} (h : e.isWrite = true) {settings : Settings}
    {offset : Int} {s : State} {r : Outcome} (hrun : of (e.run settings offset) s r)
    (hwithin : r.Within) :
    ∃ i, s.Finds settings offset i ∧ r = .done (s.counted.store i (e.written (s.value i))) := by
  obtain rfl : e.run settings offset s = r := hrun
  obtain ⟨i, hfinds⟩ := State.exists_finds hwithin
  refine ⟨i, hfinds, ?_⟩
  rw [Effect.run, hfinds.visit, Effect.perform_of_isWrite h, State.value_counted]

/-- A store does not depend on what its cell held. -/
theorem Effect.perform_store {e : Effect} (h : e.isStore = true) (eof : EofPolicy) (s : State)
    (i : Nat) (w : UInt8) : Matches 0 (e.perform eof (s.store i w) i) (e.perform eof s i) := by
  have hstore (c : Console) (v : UInt8) :
      State.store { s.store i w with console := c } i v = State.store { s with console := c } i v :=
    State.store_store { s with console := c } i w v
  cases e with
  | change d => cases h
  | output => cases h
  | set v =>
    rw [Effect.perform, Effect.perform, State.store_store]
    exact Related.refl _
  | input =>
    have hconsole : (s.store i w).console = s.console := rfl
    simp only [Effect.perform, hconsole]
    rcases s.console.readByte with ⟨_ | _ | b, c⟩
    · exact ⟨rfl, rfl⟩
    · cases eof with
      | sentinel v =>
        simp only [hstore]
        exact Related.refl _
      | fail => exact ⟨rfl, rfl⟩
    · simp only [hstore]
      exact Related.refl _

namespace Absorbs

variable {settings : Settings} {Pre : State → Prop} {P Q : Behaviour} {base x : Int} {w : Effect}

/-- A write after `P` has no fault but one of a bound. -/
theorem fault_of_write (hw : w.isWrite = true) {start t : State} {cause : Fault}
    (h : P.seq (of (w.run settings (base + x))) start (.fault cause t))
    (hbound : cause.isBound = false) :
    P start (.fault cause t) := by
  rcases seq_inv h with ⟨cause', t', hP, he⟩ | ⟨s, -, hrun⟩
  · cases he
    exact hP
  · obtain ⟨i, -, he⟩ := Effect.run_of_isWrite hw hrun hbound
    cases he

/-- A write after `P` that has no fault, and a piece at the offset of the same cell that begins
after it: both are about one cell, and the pointer of `P` finds it too. -/
theorem write_inv (hw : w.isWrite = true) {start mid s : State} {use : State → Nat → Outcome}
    (h : P.seq (of (w.run settings (base + x))) start (.done mid)) (hrel : Related base s mid)
    (hwithin : (s.visit settings x use).Within) :
    ∃ u i, P start (.done u) ∧ u.Finds settings (base + x) i ∧ s.Finds settings x i ∧
      mid = u.counted.store i (w.written (u.value i)) := by
  rcases seq_inv h with ⟨cause, t, -, he⟩ | ⟨u, hP, hrun⟩
  · cases he
  · obtain ⟨i, hfinds, he⟩ := Effect.run_of_isWrite hw hrun trivial
    obtain rfl := Outcome.done.inj he
    obtain ⟨j, hfinds'⟩ := State.exists_finds hwithin
    have hi := hfinds.eq_add
    have hj := (hfinds'.related hrel).eq_add
    change (j : Int) = u.pointer + (base + x) at hj
    obtain rfl : j = i := by omega
    exact ⟨u, j, hP, hfinds, hfinds', rfl⟩

/-- **A change of a cell that has just been written is merged into the write.** -/
theorem merge {w' : Effect} {d : Int8} (hw : w.isWrite = true) (hw' : w'.isWrite = true)
    (h : ∀ v, w'.written v = w.written v + Word.byte d.toInt) :
    Absorbs Pre (P.seq (of (w.run settings (base + x)))) base
      (of ((Effect.change d).run settings x))
      (P.seq (of (w'.run settings (base + x)))) base where
  fault _ _ t _ hP hbound := ⟨t, seq_fault (fault_of_write hw hP hbound), rfl⟩
  done start mid s r _ hP hrel hrun hwithin := by
    obtain rfl : (Effect.change d).run settings x s = r := hrun
    obtain ⟨u, i, hu, hfinds, hfinds', rfl⟩ := write_inv hw hP hrel hwithin
    refine ⟨_, seq_done hu rfl, ?_⟩
    rw [Effect.run, Effect.run, hfinds.visit, hfinds'.visit, Effect.perform_of_isWrite hw', h]
    have hvalue : s.counted.value i = w.written (u.value i) := by
      rw [State.value_counted, State.value, ← hrel.tape]
      exact State.value_store_self u.counted hfinds.lt_size _
    refine ⟨?_, hrel.console, Nat.le_succ_of_le hrel.steps, hrel.pointer⟩
    simp only [State.store, hvalue]
    change _ = s.tape.setIfInBounds i _
    rw [← hrel.tape]
    simp only [State.store, Array.setIfInBounds_setIfInBounds]
    rfl

/-- **A change that undoes the write before it cancels it.** -/
theorem cancel {d : Int8} (hw : w.isWrite = true) (h : ∀ v, w.written v + Word.byte d.toInt = v) :
    Absorbs Pre (P.seq (of (w.run settings (base + x)))) base
      (of ((Effect.change d).run settings x))
      P base where
  fault _ _ t _ hP hbound := ⟨t, fault_of_write hw hP hbound, rfl⟩
  done start mid s r _ hP hrel hrun hwithin := by
    obtain rfl : (Effect.change d).run settings x s = r := hrun
    obtain ⟨u, i, hu, hfinds, hfinds', rfl⟩ := write_inv hw hP hrel hwithin
    refine ⟨_, hu, ?_⟩
    rw [Effect.run, hfinds'.visit]
    have hvalue : s.counted.value i = w.written (u.value i) := by
      rw [State.value_counted, State.value, ← hrel.tape]
      exact State.value_store_self u.counted hfinds.lt_size _
    have hsteps : u.steps ≤ s.steps + 1 := by
      have := hrel.steps
      change u.steps + 1 ≤ s.steps at this
      omega
    refine ⟨?_, hrel.console, hsteps, hrel.pointer⟩
    simp only [State.store, hvalue, h]
    change _ = s.tape.setIfInBounds i _
    rw [← hrel.tape]
    simp only [State.store, Array.setIfInBounds_setIfInBounds]
    exact (congrArg State.tape (u.store_value i)).symm

/-- **A write of a cell that is then overwritten is dropped.** -/
theorem overwrite {e : Effect} (hw : w.isWrite = true) (he : e.isStore = true)
    (h : Absorbs Pre P base (of (e.run settings x)) Q base) :
    Absorbs Pre (P.seq (of (w.run settings (base + x)))) base (of (e.run settings x)) Q base where
  fault start cause t hpre hP hbound :=
    h.fault start cause t hpre (fault_of_write hw hP hbound) hbound
  done start mid s r hpre hP hrel hrun hwithin := by
    obtain rfl : e.run settings x s = r := hrun
    obtain ⟨u, i, hu, hfinds, hfinds', rfl⟩ := write_inv hw hP hrel hwithin
    -- the state that the longer program would be in without the write
    let s' : State := { s with tape := u.tape }
    have hrel' : Related base s' u := by
      refine ⟨rfl, hrel.console, ?_, hrel.pointer⟩
      exact Nat.le_trans (Nat.le_succ u.steps) hrel.steps
    have hs : s.counted = s'.counted.store i (w.written (u.value i)) := by
      have htape := hrel.tape
      simp only [State.counted, State.store] at htape ⊢
      rw [htape]
    have hfinds'' : s'.Finds settings x i := by
      have hsize : s.tape.size = u.tape.size := by
        rw [← hrel.tape]
        simp [State.store, State.counted]
      refine ⟨hfinds'.1, ?_⟩
      rw [← hfinds'.2, hsize]
    have hmatch : Matches 0 (e.run settings x s) (e.run settings x s') := by
      rw [Effect.run, hfinds'.visit, hfinds''.visit, hs]
      exact Effect.perform_store he settings.eof s'.counted i _
    obtain ⟨r', hQ, hmatch'⟩ := h.done start u s' _ hpre hu hrel' rfl (hmatch.within hwithin)
    exact ⟨r', hQ, by simpa using hmatch.trans hmatch'⟩

end Absorbs

/-! ## Cells that are known to be zero -/

/-- Where `P` ends without a fault, the cell at `offset` is zero. -/
def ZeroAt (Pre : State → Prop) (P : Behaviour) (offset : Int) : Prop :=
  ∀ start mid (i : Nat), Pre start → P start (.done mid) → (i : Int) = mid.pointer + offset →
    mid.value i = 0

/-- A state whose cells are all zero. -/
def State.Blank (s : State) : Prop :=
  ∀ i, s.value i = 0

theorem State.blank_initial (settings : Settings) (streams : Streams) :
    (State.initial settings streams).Blank := by
  intro i
  simp only [State.initial, State.value, Array.getD_eq_getD_getElem?, Array.getElem?_replicate]
  split <;> rfl

namespace ZeroAt

variable {settings : Settings} {Pre : State → Prop} {P A : Behaviour}

/-- At the start of a program every cell is zero. -/
theorem of_blank (hpre : ∀ s, Pre s → s.Blank) (offset : Int) : ZeroAt Pre (of .done) offset := by
  intro start mid i hstart hmid _
  obtain rfl := Outcome.done.inj hmid
  exact hpre _ hstart i

/-- A cell that has just been set to zero is zero. -/
theorem of_set (offset : Int) :
    ZeroAt Pre (P.seq (of ((Effect.set 0).run settings offset))) offset := by
  intro start mid i _ hmid hi
  rcases seq_inv hmid with ⟨cause, t, -, he⟩ | ⟨s, -, hrun⟩
  · cases he
  · obtain ⟨j, hfinds, he⟩ := Effect.run_of_isWrite rfl hrun trivial
    obtain rfl := Outcome.done.inj he
    have hj := hfinds.eq_add
    change (i : Int) = s.pointer + offset at hi
    obtain rfl : i = j := by omega
    exact State.value_store_self s.counted hfinds.lt_size _

/-- A loop that ends leaves the pointer on a cell that is zero. -/
theorem of_loop (entry exit : Int) : ZeroAt Pre (P.seq (loop settings entry A exit)) 0 := by
  intro start mid i _ hmid hi
  obtain rfl : i = mid.pointer := by omega
  rcases seq_inv hmid with ⟨cause, t, -, he⟩ | ⟨s, -, hloop⟩
  · cases he
  · rcases seq_inv hloop with ⟨cause, t, -, he⟩ | ⟨u, -, hiter⟩
    · cases he
    · generalize hr : Outcome.done mid = r at hiter
      induction hiter with
      | stop hzero =>
        obtain rfl := Outcome.done.inj hr
        exact hzero
      | fail => cases hr
      | again _ _ _ ih => exact ih hr

/-- A move to a cell that is known to be zero ends there. -/
theorem moveBy {base entry : Int} (h : ZeroAt Pre P (base + entry)) {start mid s : State}
    (hpre : Pre start) (hP : P start (.done mid)) (hrel : Related base s mid)
    (hwithin : (s.moveBy settings entry).Within) :
    ∃ u, s.moveBy settings entry = .done u ∧ u.current = 0 ∧ Related (base + entry) u mid := by
  obtain ⟨i, hfinds⟩ := State.exists_finds hwithin
  have hi := hfinds.eq_add
  have hpointer := hrel.pointer
  refine ⟨s.counted.movedTo i, hfinds.visit _, ?_, hrel.tape, hrel.console,
    Nat.le_succ_of_le hrel.steps, ?_⟩
  · rw [State.current_movedTo, State.value_counted, State.value, ← hrel.tape]
    exact h start mid i hpre hP (by omega)
  · change (i : Int) = mid.pointer + (base + entry)
    omega

end ZeroAt

/-! ## Loops -/

/-- **A loop whose cell is zero on entry is dropped.** The pointer stays where it was, and later
offsets make up for the move. -/
theorem Absorbs.skip {settings : Settings} {Pre : State → Prop} {P A : Behaviour} {base entry : Int}
    (exit : Int) (h : ZeroAt Pre P (base + entry)) :
    Absorbs Pre P base (loop settings entry A exit) P (base + entry) where
  fault _ _ t _ hP _ := ⟨t, hP, rfl⟩
  done start mid s r hpre hP hrel hloop hwithin := by
    rcases seq_inv hloop with ⟨cause, u, hmove, rfl⟩ | ⟨u, hmove, hiter⟩
    · have hmove : s.moveBy settings entry = .fault cause u := hmove
      obtain ⟨v, hv, -⟩ := h.moveBy hpre hP hrel (hmove ▸ hwithin)
      rw [hmove] at hv
      cases hv
    · have hmove : s.moveBy settings entry = .done u := hmove
      obtain ⟨v, hv, hzero, hrel'⟩ := h.moveBy hpre hP hrel (by rw [hmove]; trivial)
      obtain rfl := Outcome.done.inj (hmove.symm.trans hv)
      cases hiter with
      | stop => exact ⟨_, hP, hrel'⟩
      | fail hcell => exact absurd hzero hcell
      | again hcell => exact absurd hzero hcell

namespace Refines

variable {settings : Settings} {A : Behaviour} {d : Int8} {k exit : Int}

/-- One round of a loop that only changes its own cell leaves everything else as it was. -/
theorem round_clear (h : Refines 0 k A (of ((Effect.change d).run settings 0))) (hk : k + exit = 0)
    {s : State} {r : Outcome} (hround : round settings A exit s r) (hwithin : r.Within) :
    ∃ t, r = .done t ∧
      t.tape = s.tape.setIfInBounds s.pointer (s.current + Word.byte d.toInt) ∧
      t.console = s.console ∧ s.steps ≤ t.steps ∧ t.pointer = s.pointer := by
  rcases seq_inv hround with ⟨cause, u, hA, rfl⟩ | ⟨u, hA, hmove⟩
  · obtain ⟨r', hchange, hmatch⟩ := h s s _ (.refl s) hA hwithin
    obtain ⟨i, -, rfl⟩ := Effect.run_of_isWrite rfl hchange (hmatch.within hwithin)
    exact hmatch.elim
  · obtain ⟨r', hchange, hmatch⟩ := h s s _ (.refl s) hA trivial
    obtain ⟨i, hfinds, rfl⟩ := Effect.run_of_isWrite rfl hchange (hmatch.within trivial)
    have hrel : Related k u _ := hmatch
    obtain rfl : u.moveBy settings exit = r := hmove
    obtain ⟨j, hfinds'⟩ := State.exists_finds hwithin
    have hpointer := hrel.pointer
    have hi := hfinds.eq_add
    have hj := hfinds'.eq_add
    change (u.pointer : Int) = s.pointer + k at hpointer
    obtain rfl : i = s.pointer := by omega
    obtain rfl : j = s.pointer := by omega
    refine ⟨u.counted.movedTo s.pointer, hfinds'.visit _, hrel.tape.symm, hrel.console.symm, ?_,
      rfl⟩
    have hsteps := hrel.steps
    change s.steps + 1 ≤ u.steps at hsteps
    change s.steps ≤ u.steps + 1
    omega

/-- So the rounds, if they come to an end, leave zero in that cell and everything else as it was. -/
theorem iterates_clear (h : Refines 0 k A (of ((Effect.change d).run settings 0)))
    (hk : k + exit = 0)
    {s : State} {r : Outcome} (hiter : Iterates (round settings A exit) s r) (hwithin : r.Within) :
    ∃ t, r = .done t ∧ t.tape = s.tape.setIfInBounds s.pointer 0 ∧ t.console = s.console ∧
      s.steps ≤ t.steps ∧ t.pointer = s.pointer := by
  induction hiter with
  | @stop s hzero =>
    have htape := congrArg State.tape (s.store_value s.pointer)
    rw [show s.value s.pointer = 0 from hzero] at htape
    exact ⟨s, rfl, htape.symm, rfl, Nat.le_refl _, rfl⟩
  | fail _ hround =>
    obtain ⟨t, he, -⟩ := round_clear h hk hround hwithin
    cases he
  | @again s u r _ hround _ ih =>
    obtain ⟨t, he, htape, hconsole, hsteps, hpointer⟩ := round_clear h hk hround trivial
    obtain rfl := Outcome.done.inj he
    obtain ⟨w, rfl, htape', hconsole', hsteps', hpointer'⟩ := ih hwithin
    refine ⟨w, rfl, ?_, hconsole'.trans hconsole, Nat.le_trans hsteps hsteps',
      hpointer'.trans hpointer⟩
    rw [htape', htape, hpointer, Array.setIfInBounds_setIfInBounds]

/-- **A loop that does nothing but count its own cell is a store of zero**, which leaves the pointer
where the loop was entered. -/
theorem clear (entry : Int) (h : Refines 0 k A (of ((Effect.change d).run settings 0)))
    (hk : k + exit = 0) :
    Refines 0 entry (Behaviour.loop settings entry A exit)
      (of ((Effect.set 0).run settings entry)) := by
  intro s t r hrel hloop hwithin
  rcases seq_inv hloop with ⟨cause, u, hmove, rfl⟩ | ⟨u, hmove, hiter⟩
  · have hmove : s.moveBy settings entry = .fault cause u := hmove
    obtain ⟨i, hfinds⟩ := State.exists_finds (by rw [← State.moveBy, hmove]; exact hwithin)
    rw [State.moveBy, hfinds.visit] at hmove
    cases hmove
  · have hmove : s.moveBy settings entry = .done u := hmove
    obtain ⟨i, hfinds⟩ := State.exists_finds (by rw [← State.moveBy, hmove]; trivial)
    rw [State.moveBy, hfinds.visit] at hmove
    obtain rfl := Outcome.done.inj hmove
    obtain ⟨w, rfl, htape, hconsole, hsteps, hpointer⟩ := iterates_clear h hk hiter hwithin
    have hfinds' : t.Finds settings entry i := by simpa using hfinds.related hrel
    refine ⟨_, hfinds'.visit _, ?_⟩
    have hi := hfinds.eq_add
    have hp := hrel.pointer
    refine ⟨?_, hrel.console.trans hconsole.symm, ?_, ?_⟩
    · rw [htape]
      change t.tape.setIfInBounds i 0 = s.tape.setIfInBounds i 0
      rw [hrel.tape]
    · exact Nat.le_trans hrel.counted.steps hsteps
    · change (w.pointer : Int) = t.pointer + entry
      change w.pointer = i at hpointer
      omega

end Refines

end Tapecode
