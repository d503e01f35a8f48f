import Mathlib.Algebra.Ring.Int.Parity
import Mathlib.Data.Int.GCD
import Mathlib.Data.Nat.Prime.Basic
import Mathlib.Logic.Relator
import Tapecode.Proofs.Soundness
import Tapecode.Proofs.Visits

/-!
# Whether programs stop

A program that stops also stops when it is optimised, unless it runs into a bound: that is part of
its refinement. Here is the other direction. `Outlasts Pre P base A Q` says that `Q`, which does the
work of `P` and `A`, does not come to an end unless `P` does, and `A` after it.

Every rule of `Nest.Simplifies` keeps this, except one. A loop that only changes its own cell is
turned into a set, whatever the amount `d` that it adds. The loop itself comes to zero from every
value exactly if `d` is odd, since then it is a unit modulo 256 (`exists_wraps_to_zero`). So the
rule needs that every amount that is cleared is odd (`Nest.Simplifies.outlasts`).

`parse_reflects_termination` is the result for source texts. That it needs its hypothesis is
`parse_stops_endless_loop`: the loop of `+[--]` never comes to zero, and it is turned into a set.
-/

namespace Tapecode

open Machine Behaviour Relator

/-! ## Pieces with one outcome -/

namespace Behaviour

theorem rightUnique_of (f : State → Outcome) : RightUnique (of f) := by
  rintro s _ _ rfl rfl
  rfl

theorem rightUnique_seq {A B : Behaviour} (hA : RightUnique A) (hB : RightUnique B) :
    RightUnique (A.seq B) := by
  rintro s r r' ⟨mid, hmid, hrest⟩ ⟨mid', hmid', hrest'⟩
  obtain rfl := hA hmid hmid'
  cases mid with
  | done t => exact hB hrest hrest'
  | fault cause t => exact Eq.trans (Eq.symm hrest) hrest'

theorem rightUnique_iterates {round : Behaviour} (h : RightUnique round) :
    RightUnique (Iterates round) := by
  intro s r r' hr hr'
  induction hr with
  | stop hzero =>
    cases hr' with
    | stop => rfl
    | fail hcell => exact absurd hzero hcell
    | again hcell => exact absurd hzero hcell
  | fail hcell hround =>
    cases hr' with
    | stop hzero => exact absurd hzero hcell
    | fail _ hround' => exact h hround hround'
    | again _ hround' => cases h hround hround'
  | again hcell hround _ ih =>
    cases hr' with
    | stop hzero => exact absurd hzero hcell
    | fail _ hround' => cases h hround hround'
    | again _ hround' hrest' =>
      obtain rfl := Outcome.done.inj (h hround hround')
      exact ih hrest'

end Behaviour

/-- A run of a nest has one outcome only. -/
theorem Nest.rightUnique_runs (settings : Settings) (n : Nest) :
    RightUnique (n.Runs settings) := by
  induction n with
  | done => exact rightUnique_of _
  | act e o rest ih => exact rightUnique_seq (rightUnique_of _) ih
  | loop a body x rest ihBody ihRest =>
    have hround := rightUnique_seq ihBody (rightUnique_of (State.moveBy settings x))
    exact rightUnique_seq (rightUnique_seq (rightUnique_of _) (rightUnique_iterates hround)) ihRest

/-! ## Pieces that come to an end -/

namespace Behaviour

/-- The piece comes to an end if it is started in `s`. -/
def Ends (A : Behaviour) (s : State) : Prop :=
  ∃ r, A s r

variable {A B : Behaviour} {s t : State}

theorem ends_of (f : State → Outcome) (s : State) : (of f).Ends s :=
  ⟨f s, rfl⟩

theorem Ends.seq (hA : A.Ends s) (hB : ∀ t, A s (.done t) → B.Ends t) : (A.seq B).Ends s := by
  obtain ⟨r, hr⟩ := hA
  cases r with
  | fault cause t => exact ⟨_, seq_fault hr⟩
  | done t =>
    obtain ⟨r', hr'⟩ := hB t hr
    exact ⟨r', seq_done hr hr'⟩

theorem Ends.left (h : (A.seq B).Ends s) : A.Ends s := by
  obtain ⟨r, mid, hmid, -⟩ := h
  exact ⟨mid, hmid⟩

theorem Ends.right (h : (A.seq B).Ends s) (hA : RightUnique A) (hdone : A s (.done t)) :
    B.Ends t := by
  obtain ⟨r, mid, hmid, hrest⟩ := h
  obtain rfl := hA hmid hdone
  exact ⟨r, hrest⟩

/-- A loop comes to an end if it stops now or after its next round. -/
theorem Ends.iterates (hA : A.Ends s)
    (hrest : s.current ≠ 0 → ∀ t, A s (.done t) → Ends (Iterates A) t) : Ends (Iterates A) s := by
  by_cases hcell : s.current = 0
  · exact ⟨_, .stop hcell⟩
  obtain ⟨r, hr⟩ := hA
  cases r with
  | fault cause t => exact ⟨_, .fail hcell hr⟩
  | done t =>
    obtain ⟨r', hr'⟩ := hrest hcell t hr
    exact ⟨r', .again hcell hr hr'⟩

end Behaviour

/-- Started in related states, `A` comes to an end wherever `B` does. -/
def EndsWith (shift : Int) (A B : Behaviour) : Prop :=
  ∀ s t, Related shift s t → B.Ends t → A.Ends s

namespace EndsWith

variable {settings : Settings} {A A' B B' : Behaviour} {k l shift : Int}

theorem of (f : State → Outcome) (B : Behaviour) : EndsWith shift (Behaviour.of f) B :=
  fun s _ _ _ => ends_of f s

theorem seq (hA : EndsWith k A A') (hrefines : Refines k l A A') (hunique : RightUnique A')
    (hB : EndsWith l B B') : EndsWith k (A.seq B) (A'.seq B') := by
  intro s t hrel hends
  refine (hA s t hrel hends.left).seq fun u hu => ?_
  obtain ⟨r', hr', hmatch⟩ := hrefines s t _ hrel hu trivial
  obtain ⟨u', rfl, hrel'⟩ := hmatch.exists_done
  exact hB u u' hrel' (hends.right hunique hr')

theorem iterates (hA : EndsWith 0 A B) (hrefines : Refines 0 0 A B) (hunique : RightUnique B) :
    EndsWith 0 (Iterates A) (Iterates B) := by
  rintro s t hrel ⟨r, hiter⟩
  induction hiter generalizing s with
  | stop hzero => exact ⟨_, .stop (hrel.current_eq ▸ hzero)⟩
  | fail _ hround =>
    refine (hA s _ hrel ⟨_, hround⟩).iterates fun _ u hu => ?_
    -- a round without a fault would be matched by one of `B`
    obtain ⟨r', hr', hmatch⟩ := hrefines s _ _ hrel hu trivial
    obtain rfl := hunique hround hr'
    exact hmatch.elim
  | again _ hround _ ih =>
    refine (hA s _ hrel ⟨_, hround⟩).iterates fun _ u hu => ?_
    obtain ⟨r', hr', hmatch⟩ := hrefines s _ _ hrel hu trivial
    obtain rfl := hunique hround hr'
    exact ih u hmatch

theorem loop (entry exit : Int) (hA : EndsWith 0 A B) (hrefines : Refines 0 k A B)
    (hunique : RightUnique B) :
    EndsWith shift (Behaviour.loop settings entry A exit)
      (Behaviour.loop settings (shift + entry) B (k + exit)) := by
  have hround : EndsWith 0 (round settings A exit) (round settings B (k + exit)) :=
    hA.seq hrefines hunique (.of _ _)
  have hrounds := hround.iterates (hrefines.seq (.moveBy exit))
    (rightUnique_seq hunique (rightUnique_of _))
  exact (EndsWith.of _ _).seq (.moveBy entry) (rightUnique_of _) hrounds

end EndsWith

/-! ## Loops that only change their own cell -/

theorem odd_toNat_byte {d : Int8} (hd : Odd d.toInt) : Odd (Word.byte d.toInt).toNat := by
  have htoNat : (Word.byte d.toInt).toNat = (d.toInt % (256 : Nat)).toNat % 2 ^ 8 :=
    UInt8.toNat_ofNat'
  rw [Nat.odd_iff]
  rw [Int.odd_iff] at hd
  omega

/-- An odd amount, added often enough, leads from every value to zero. -/
theorem exists_wraps_to_zero {d : Nat} (hd : Odd d) (v : Nat) : ∃ n, (v + n * d) % 256 = 0 := by
  have hcoprime : Nat.Coprime d 256 := (Nat.coprime_two_right.mpr hd).pow_right 8
  obtain ⟨n, -, hn⟩ := Nat.exists_mul_mod_eq_of_coprime (255 * v) hcoprime (by decide)
  refine ⟨n, ?_⟩
  rw [Nat.mul_comm n d]
  omega

/-- **A loop that adds an odd amount to its own cell comes to an end.** -/
theorem ends_iterates_of_odd {settings : Settings} {A : Behaviour} {d : Int8} {k exit : Int}
    (hends : ∀ s, A.Ends s) (h : Refines 0 k A (of ((Effect.change d).run settings 0)))
    (hk : k + exit = 0) (hd : Odd d.toInt) (s : State) :
    Ends (Iterates (round settings A exit)) s := by
  have hround (s : State) : Ends (round settings A exit) s :=
    (hends s).seq fun t _ => ends_of _ t
  obtain ⟨n, hn⟩ := exists_wraps_to_zero (odd_toNat_byte hd) s.current.toNat
  -- by the number of rounds that are left
  induction n generalizing s with
  | zero =>
    refine ⟨_, .stop (UInt8.toNat_inj.mp ?_)⟩
    have := s.current.toNat_lt
    change s.current.toNat = 0
    omega
  | succ n ih =>
    refine (hround s).iterates fun hcell t ht => ih t ?_
    obtain ⟨u, he, htape, -, -, hpointer⟩ := Refines.round_clear h hk ht trivial
    obtain rfl := Outcome.done.inj he
    have hsize : s.pointer < s.tape.size := by
      by_contra hge
      exact hcell (by simp [State.current, State.value, hge])
    have hcurrent : t.current = s.current + Word.byte d.toInt := by
      rw [State.current, hpointer, State.value, htape]
      simp [hsize]
    rw [hcurrent, UInt8.toNat_add]
    have hn' : (s.current.toNat + (Word.byte d.toInt).toNat + n * (Word.byte d.toInt).toNat) % 256
        = 0 := by
      rw [← hn, Nat.succ_mul, Nat.add_assoc, Nat.add_comm (n * _)]
    omega

/-! ## Rewriting the end of a program -/

/-- `Q` does not come to an end unless `P` does, and the piece `A` after it. -/
structure Outlasts (Pre : State → Prop) (P : Behaviour) (base : Int) (A Q : Behaviour) : Prop where
  first : ∀ start, Pre start → Q.Ends start → P.Ends start
  second : ∀ start mid s, Pre start → Q.Ends start → P start (.done mid) → Related base s mid →
    A.Ends s

namespace Outlasts

variable {Pre : State → Prop} {P Q R A B : Behaviour} {base k l : Int}

/-- A piece that ends wherever it is started. -/
theorem of_ends (hA : ∀ s, A.Ends s) (h : ∀ start, Q.Ends start → P.Ends start) :
    Outlasts Pre P base A Q where
  first start _ hQ := h start hQ
  second _ _ s _ _ _ _ := hA s

theorem append (h : EndsWith k A B) (hunique : RightUnique P) : Outlasts Pre P k A (P.seq B) where
  first _ _ hends := hends.left
  second _ mid s _ hends hP hrel := h s mid hrel (hends.right hunique hP)

/-- Here it is needed that `Q` absorbs `A`: the state in which `B` is started is known from where `Q`
ends. -/
theorem trans (h : Outlasts Pre P k A Q) (habsorbs : Absorbs Pre P k A Q l)
    (h' : Outlasts Pre Q l B R) : Outlasts Pre P k (A.seq B) R where
  first start hpre hR := h.first start hpre (h'.first start hpre hR)
  second start mid s hpre hR hP hrel := by
    have hQ := h'.first start hpre hR
    refine (h.second start mid s hpre hQ hP hrel).seq fun t hA => ?_
    obtain ⟨r, hr, hmatch⟩ := habsorbs.done start mid s _ hpre hP hrel hA trivial
    obtain ⟨t', rfl, hrel'⟩ := hmatch.exists_done
    exact h'.second start t' t hpre hR hr hrel'

theorem endsWith (hpre : ∀ s, Pre s) (h : Outlasts Pre (of .done) 0 A Q) : EndsWith 0 A Q :=
  fun s t hrel hQ => h.second t t s (hpre t) hQ rfl hrel

/-- A loop whose cell is zero on entry comes to an end. -/
theorem skip {settings : Settings} {entry : Int} (exit : Int) (h : ZeroAt Pre P (base + entry)) :
    Outlasts Pre P base (loop settings entry A exit) P where
  first _ _ hP := hP
  second start mid s hpre _ hP hrel := by
    refine (ends_of _ s).seq fun t (ht : s.moveBy settings entry = .done t) => ?_
    obtain ⟨u, hu, hzero, -⟩ := h.moveBy hpre hP hrel (by rw [ht]; trivial)
    obtain rfl := Outcome.done.inj (ht.symm.trans hu)
    exact ⟨_, .stop hzero⟩

end Outlasts

/-! ## Rules -/

namespace Nest

variable {settings : Settings}

/-- Whatever becomes of an effect, the nest before it does not come to an end later. -/
theorem Takes.ends {e : Effect} {o : Int} {r r' : Nest} (h : r.Takes o e r') {s : State}
    (hends : (r'.Runs settings).Ends s) : (r.Runs settings).Ends s := by
  have hact (r : Nest) (w : Effect) (hr : (r.Runs settings).Ends s) :
      ((r ++ .act w o .done).Runs settings).Ends s := by
    rw [runs_append_act]
    exact hr.seq fun t _ => ends_of _ t
  have hleft (r : Nest) (w : Effect) (hr : ((r ++ .act w o .done).Runs settings).Ends s) :
      (r.Runs settings).Ends s := by
    rw [runs_append_act] at hr
    exact hr.left
  induction h with
  | append e r => exact hleft r e hends
  | overwrite _ _ _ ih => exact hact _ _ (ih hends)
  | merge => exact hact _ _ (hleft _ _ hends)
  | cancel => exact hact _ _ hends

theorem Takes.outlasts {e : Effect} {o base x : Int} {r r' : Nest} (h : r.Takes o e r')
    (Pre : State → Prop) :
    Outlasts Pre (r.Runs settings) base (of (e.run settings x)) (r'.Runs settings) :=
  .of_ends (ends_of _) fun _ => h.ends

theorem Closes.outlasts {outer : List OpenLoop} {r r' body : Nest} {base base' a x k : Int}
    (h : Closes (Odd ·.toInt) outer r (base + a) body (k + x) r' base') {Pre : State → Prop}
    {A : Behaviour} (hpre : outer = [] → ∀ s, Pre s → s.Blank)
    (hbody : Refines 0 k A (body.Runs settings)) (hends : EndsWith 0 A (body.Runs settings)) :
    Outlasts Pre (r.Runs settings) base (Behaviour.loop settings a A x) (r'.Runs settings) := by
  generalize hexit : k + x = exit at h
  cases h with
  | removed hdead => exact .skip x (Builder.zeroAt_of_isDead hdead settings hpre)
  | cleared hd htakes =>
    rw [Runs, Runs, seq_of_done] at hbody hends
    have hA (s : State) : A.Ends s := hends s s (.refl s) (ends_of _ s)
    refine .of_ends (fun s => ?_) fun _ => htakes.ends
    exact (ends_of _ s).seq fun t _ => ends_iterates_of_odd hA hbody hexit hd t
  | kept body exit =>
    rw [runs_append_loop, ← hexit]
    exact .append (hends.loop a x hbody (body.rightUnique_runs settings))
      (r.rightUnique_runs settings)

/-- **A nest that is simplified comes to an end where the simplified nest does**, if the loops that
are turned into sets add odd amounts. -/
theorem Simplifies.outlasts {outer : List OpenLoop} {r n r' : Nest} {base base' : Int}
    (h : Simplifies (Odd ·.toInt) outer r base n r' base') (settings : Settings)
    (Pre : State → Prop) (hpre : outer = [] → ∀ s, Pre s → s.Blank) :
    Outlasts Pre (r.Runs settings) base (n.Runs settings) (r'.Runs settings) := by
  induction h generalizing Pre with
  | done => exact .of_ends (ends_of _) fun _ hends => hends
  | act htakes _ ih =>
    exact (htakes.outlasts Pre).trans (htakes.absorbs settings Pre) (ih Pre hpre)
  | loop hbody hclose _ ihBody ihRest =>
    have hrefines := (hbody.absorbs settings (fun _ => True) (by simp)).refines fun _ => trivial
    have hends := (ihBody (fun _ => True) (by simp)).endsWith fun _ => trivial
    exact (hclose.outlasts hpre hrefines hends).trans (hclose.absorbs settings hpre hrefines)
      (ihRest Pre hpre)

end Nest

/-! ## Source texts -/

/-- **Passes do not make programs stop**, if every loop that they turn into a set adds an odd amount
to its cell. Where there is no step limit and the optimised code is executed without a fault, the
plain code comes to an end on the same streams. It leaves the tape, or there is no fault, the calls
on the streams are the same and so is the tape. -/
theorem parse_reflects_termination {passes : Passes} {source : List UInt8} {plain : Program}
    {ws : List Warning} (hparse : parse .off source = .ok (plain, ws))
    (hodd : ∀ d ∈ ({ passes } : Builder).clearedBy 0 plain, Odd d.toInt) :
    ∃ program ws' code code', parse passes source = .ok (program, ws') ∧
      plain.compile = .ok code ∧ program.compile = .ok code' ∧
      ∀ settings streams m', settings.stepLimit = none →
        Executes code' settings streams none m' →
        ∃ fault m, Executes code settings streams fault m ∧
          ((∃ cell, fault = some (.tapeOutOfBounds cell)) ∨
            fault = none ∧ m.console.streams.events = m'.console.streams.events ∧
              m.tape = m'.tape) := by
  obtain ⟨program, ws', hlive, ⟨n, rfl⟩, hprogram⟩ := parse_of_parse_off passes hparse
  obtain ⟨n', base, hoptimize, hsimplifies⟩ := n.optimize_simplifies passes _ hodd
  rw [hprogram] at hoptimize
  obtain rfl := Except.ok.inj hoptimize
  refine ⟨_, ws', n.encode, n'.encode, hlive, n.compile_program, n'.compile_program, ?_⟩
  intro settings streams m' hlimit hexec'
  obtain ⟨r', -, hrun', -⟩ := Nest.runs_of_executes hexec'
  -- the run of the plain program comes to an end
  have houtlasts := hsimplifies.outlasts settings (· = .initial settings streams)
    fun _ s hs => hs ▸ State.blank_initial _ _
  obtain ⟨r, hrun⟩ := houtlasts.second _ _ _ rfl ⟨r', hrun'⟩ rfl (.refl _)
  obtain ⟨address, hexec⟩ := Nest.executes_of_runs hrun
  rw [(r.finish_machine address).1] at hexec
  refine ⟨r.reported, _, hexec, ?_⟩
  by_cases htape : ∃ cell, r.reported = some (.tapeOutOfBounds cell)
  · exact .inl htape
  -- and where it ends within its bounds, it is refined
  · have hsteps (limit : Nat) : r.reported ≠ some (.stepLimitExceeded limit) := by
      intro hfault
      rw [hfault] at hexec
      rw [hexec.stepLimit_of_exceeded] at hlimit
      cases hlimit
    obtain ⟨m'', hexec'', hevents, hdone⟩ := Nest.encode_refinedBy hsimplifies.refines_initial
      settings streams _ _ hexec (fun cell h => htape ⟨cell, h⟩) hsteps
    obtain ⟨hnone, rfl⟩ := hexec''.unique hexec'
    exact .inr ⟨hnone, hevents.symm, (hdone hnone).1.symm⟩

/-- The loop of `,[---]` takes three from its cell in each round, and comes to zero from one. -/
theorem parse_reflects_termination_of_minus_three :
    ∃ fault m, Executes [1, 0, 5, 0, 12, 3, 0, -1, 3, 0, -1, 3, 0, -1, 6, 0, 12] { tapeSize := 1 }
        { reads := [.byte 1] } fault m ∧
      ((∃ cell, fault = some (.tapeOutOfBounds cell)) ∨ fault = none ∧ m.tape = #[0]) := by
  have hodd (d : Int8) (hd : d ∈ [(-3 : Int8)]) : Odd d.toInt := by
    obtain rfl := List.mem_singleton.mp hd
    exact ⟨-2, rfl⟩
  obtain ⟨program, ws', code, code', hlive, hcode, hcode', hends⟩ :=
    @parse_reflects_termination .all ([.input, .loopStart, .decrement, .decrement, .decrement,
      .loopEnd].map Symbol.byte) [.act .input 0, .enter 0, .act (.change (-1)) 0,
      .act (.change (-1)) 0, .act (.change (-1)) 0, .leave 0] _ rfl hodd
  obtain rfl := Except.ok.inj hcode
  obtain ⟨rfl, rfl⟩ := Prod.mk.inj (Except.ok.inj hlive)
  obtain rfl := Except.ok.inj hcode'
  obtain ⟨fault, m, hexec, hcases⟩ := hends { tapeSize := 1 } { reads := [.byte 1] } _ rfl
    ⟨none, _, ⟨3, rfl⟩, rfl⟩
  exact ⟨fault, m, hexec, hcases.imp id fun h => ⟨h.1, h.2.2⟩⟩

/-- The body of the loop `[--]`. -/
def Nest.minusTwo : Nest :=
  .act (.change (-1)) 0 (.act (.change (-1)) 0 .done)

/-- A loop that takes two from an odd cell in each round never comes to zero. -/
theorem not_ends_minusTwo (v : UInt8) (hv : v.toNat % 2 = 1) (k : Nat) (c : Console) :
    ¬Ends (Iterates (round { tapeSize := 1 } (Nest.minusTwo.Runs { tapeSize := 1 }) 0))
      ⟨#[v], 0, k, c⟩ := by
  rintro ⟨r, hiter⟩
  generalize hs : (⟨#[v], 0, k, c⟩ : State) = s at hiter
  have hunique := rightUnique_seq (Nest.minusTwo.rightUnique_runs { tapeSize := 1 })
    (rightUnique_of (State.moveBy { tapeSize := 1 } 0))
  have hround (v : UInt8) (k : Nat) (c : Console) :
      round { tapeSize := 1 } (Nest.minusTwo.Runs { tapeSize := 1 }) 0 ⟨#[v], 0, k, c⟩
        (.done ⟨#[v + 255 + 255], 0, k + 3, c⟩) :=
    seq_done (seq_done rfl (seq_done rfl rfl)) rfl
  induction hiter generalizing v k c with
  | stop hzero =>
    subst hs
    have hzero : v = 0 := hzero
    subst hzero
    cases hv
  | fail _ hfault =>
    subst hs
    cases hunique hfault (hround v k c)
  | again _ hdone _ ih =>
    subst hs
    obtain rfl := Outcome.done.inj (hunique hdone (hround v k c))
    refine ih _ ?_ _ _ rfl
    simp only [UInt8.toNat_add, UInt8.reduceToNat]
    omega

/-- **Passes can make a program stop.** Without passes, the source text `+[--]` runs for ever on a
tape with one cell. With all of them its loop is turned into a set, and it stops. -/
theorem parse_stops_endless_loop :
    ∃ code code' m, (∃ plain ws, parse .off ([.increment, .loopStart, .decrement, .decrement,
        .loopEnd].map Symbol.byte) = .ok (plain, ws) ∧ plain.compile = .ok code) ∧
      (∃ program ws, parse .all ([.increment, .loopStart, .decrement, .decrement,
        .loopEnd].map Symbol.byte) = .ok (program, ws) ∧ program.compile = .ok code') ∧
      Executes code' { tapeSize := 1 } {} none m ∧
      RunsForever code.toArray { tapeSize := 1 } (.load { tapeSize := 1 } {}) := by
  refine ⟨(Nest.act (.change 1) 0 (.loop 0 .minusTwo 0 .done)).encode, [4, 0, 0], _,
    ⟨_, _, rfl, rfl⟩, ⟨_, _, rfl, rfl⟩, ⟨none, _, ⟨2, rfl⟩, rfl⟩, runsForever_iff.mpr ?_⟩
  rintro ⟨fault, e, hhalts⟩
  obtain ⟨r, -, hrun, -⟩ := Nest.runs_of_executes ⟨fault, e, hhalts, rfl⟩
  -- after the first change and the move to the loop's cell, the cell is one
  have hloop := Ends.right ⟨r, hrun⟩ (rightUnique_of _) rfl
  have hrounds := hloop.left.right (rightUnique_of _) rfl
  exact not_ends_minusTwo 1 rfl _ _ hrounds

end Tapecode
