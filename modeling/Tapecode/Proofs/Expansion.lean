import Tapecode.Proofs.Refinement
import Tapecode.Proofs.Visits

/-!
# Programs of unit changes

`Nest.expand` writes a program out in the few instructions that symbols stand for. A change becomes
so many changes by one, and a set becomes a loop that counts its cell to zero, and then changes by
one. Such a loop moves the pointer to its cell, so later offsets count from there: `Nest.expand k n`
is to be run with the pointer `k` cells to the right of where `n` is run.

Without a step limit an expanded program does exactly what the program does, faults included.

* `Nest.expand_expands`: where a run of the program ends, so does one of the expanded program, in
  the same way.
* `Nest.Visits.expand`: wherever a run of the program comes to, a run of the expanded program comes
  to the same state, in no fewer steps.

Changes by nothing are excluded, since nothing is left of them: not even the test whether their cell
is on the tape.
-/

namespace Tapecode

open Machine Behaviour

/-! ## Pieces that expand pieces -/

/-- Started in related states, `A` ends wherever `B` does, and in the same way. -/
def Expands (shift shift' : Int) (A B : Behaviour) : Prop :=
  ∀ s t r', Related shift s t → B t r' → ∃ r, A s r ∧ Matches shift' r r'

section

variable {settings : Settings} {shift : Int} {s t : State}

/-- Without a step limit, an instruction on the same cell begins in both of two related states, or
in neither. -/
theorem Related.finds_or_fault (hlimit : settings.stepLimit = none) (h : Related shift s t)
    (offset : Int) :
    (∃ i, s.Finds settings (offset - shift) i ∧ t.Finds settings offset i) ∨
      ∃ cause, ∀ use, s.visit settings (offset - shift) use = .fault cause s.counted ∧
        t.visit settings offset use = .fault cause t.counted := by
  have hcut (steps : Nat) : settings.cutOff? steps = none := by rw [Settings.cutOff?, hlimit]
  have hcell : locate t.tape.size (t.pointer + offset) =
      locate s.tape.size (s.pointer + (offset - shift)) := by
    have hpointer := h.pointer
    rw [h.tape]
    congr 1
    omega
  cases hs : locate s.tape.size (s.pointer + (offset - shift)) with
  | ok i => exact .inl ⟨i, ⟨hcut _, hs⟩, ⟨hcut _, hcell.trans hs⟩⟩
  | error cause =>
    refine .inr ⟨cause, fun use => ⟨?_, ?_⟩⟩
    · simp only [State.visit, hcut, hs]
    · simp only [State.visit, hcut, hcell, hs]

namespace Expands

variable {A A' B B' : Behaviour} {k l m : Int}

theorem nil : Expands shift shift (of .done) (of .done) := by
  rintro s t _ hrel rfl
  exact ⟨_, rfl, hrel⟩

theorem act (hlimit : settings.stepLimit = none) (e : Effect) (offset : Int) :
    Expands shift shift (of (e.run settings (offset - shift))) (of (e.run settings offset)) := by
  rintro s t _ hrel rfl
  refine ⟨_, rfl, ?_⟩
  rcases hrel.finds_or_fault hlimit offset with ⟨i, hs, ht⟩ | ⟨cause, hfault⟩
  · rw [Effect.run, Effect.run, hs.visit, ht.visit]
    exact Matches.perform settings.eof e i hrel.counted
  · rw [Effect.run, Effect.run, (hfault _).1, (hfault _).2]
    exact ⟨rfl, hrel.console⟩

theorem moveBy (hlimit : settings.stepLimit = none) (offset : Int) :
    Expands shift 0 (of (State.moveBy settings (offset - shift)))
      (of (State.moveBy settings offset)) := by
  rintro s t _ hrel rfl
  refine ⟨_, rfl, ?_⟩
  rcases hrel.finds_or_fault hlimit offset with ⟨i, hs, ht⟩ | ⟨cause, hfault⟩
  · rw [State.moveBy, State.moveBy, hs.visit, ht.visit]
    exact ⟨hrel.tape, hrel.console, hrel.counted.steps, (Int.add_zero _).symm⟩
  · rw [State.moveBy, State.moveBy, (hfault _).1, (hfault _).2]
    exact ⟨rfl, hrel.console⟩

theorem seq (hA : Expands k l A A') (hB : Expands l m B B') :
    Expands k m (A.seq B) (A'.seq B') := by
  intro s t r' hrel hrun
  rcases seq_inv hrun with ⟨cause, u, hfault, rfl⟩ | ⟨u, hdone, hrest⟩
  · obtain ⟨r, hr, hmatch⟩ := hA s t _ hrel hfault
    obtain ⟨v, rfl, hconsole⟩ := hmatch.exists_fault_left
    exact ⟨_, seq_fault hr, rfl, hconsole⟩
  · obtain ⟨r, hr, hmatch⟩ := hA s t _ hrel hdone
    obtain ⟨v, rfl, hrel'⟩ := hmatch.exists_done_left
    obtain ⟨r₁, hr₁, hmatch₁⟩ := hB v u r' hrel' hrest
    exact ⟨r₁, seq_done hr hr₁, hmatch₁⟩

theorem iterates (h : Expands 0 0 A B) : Expands 0 0 (Iterates A) (Iterates B) := by
  intro s t r' hrel hiter
  induction hiter generalizing s with
  | stop hzero => exact ⟨_, .stop (hrel.current_eq ▸ hzero), hrel⟩
  | fail hcell hround =>
    obtain ⟨r, hr, hmatch⟩ := h s _ _ hrel hround
    obtain ⟨v, rfl, hconsole⟩ := hmatch.exists_fault_left
    exact ⟨_, .fail (hrel.current_eq ▸ hcell) hr, rfl, hconsole⟩
  | again hcell hround _ ih =>
    obtain ⟨r, hr, hmatch⟩ := h s _ _ hrel hround
    obtain ⟨v, rfl, hrel'⟩ := hmatch.exists_done_left
    obtain ⟨r₁, hr₁, hmatch₁⟩ := ih v hrel'
    exact ⟨r₁, .again (hrel.current_eq ▸ hcell) hr hr₁, hmatch₁⟩

/-- Complete rounds are matched by complete rounds. -/
theorem rounds (h : Expands 0 0 A B) {u : State} (hrel : Related 0 s t) (hrounds : Rounds B t u) :
    ∃ v, Rounds A s v ∧ Related 0 v u := by
  induction hrounds with
  | none => exact ⟨s, .none s, hrel⟩
  | more _ hcell hround ih =>
    obtain ⟨v, hv, hrel'⟩ := ih
    obtain ⟨r, hr, hmatch⟩ := h v _ _ hrel' hround
    obtain ⟨w, rfl, hrel''⟩ := hmatch.exists_done_left
    exact ⟨w, hv.more (hrel'.current_eq ▸ hcell) hr, hrel''⟩

theorem round (hlimit : settings.stepLimit = none) (exit : Int) (h : Expands 0 k A B) :
    Expands 0 0 (Behaviour.round settings A (exit - k)) (Behaviour.round settings B exit) :=
  h.seq (moveBy hlimit exit)

theorem loop (hlimit : settings.stepLimit = none) (entry exit : Int) (h : Expands 0 k A B) :
    Expands shift 0 (Behaviour.loop settings (entry - shift) A (exit - k))
      (Behaviour.loop settings entry B exit) :=
  (moveBy hlimit entry).seq (h.round hlimit exit).iterates

end Expands

end

/-! ## Changes of one cell -/

/-- At least `n` steps lead from one state to another. They leave `v` in the cell `i`, and all else
as it was. -/
structure State.Rewrites (n i : Nat) (v : UInt8) (s t : State) : Prop where
  tape : t.tape = s.tape.setIfInBounds i v
  console : t.console = s.console
  steps : s.steps + n ≤ t.steps
  pointer : t.pointer = s.pointer

namespace State.Rewrites

variable {settings : Settings} {n m i : Nat} {v w : UInt8} {s t u : State}

theorem refl (s : State) (i : Nat) : Rewrites 0 i (s.value i) s s :=
  ⟨(congrArg State.tape (s.store_value i)).symm, rfl, Nat.le_refl _, rfl⟩

theorem store (s : State) (i : Nat) (v : UInt8) : Rewrites 1 i v s (s.counted.store i v) :=
  ⟨rfl, rfl, Nat.le_refl _, rfl⟩

theorem trans (h : Rewrites n i v s t) (h' : Rewrites m i w t u) : Rewrites (n + m) i w s u where
  tape := by rw [h'.tape, h.tape, Array.setIfInBounds_setIfInBounds]
  console := h'.console.trans h.console
  steps := by
    have := h.steps
    have := h'.steps
    omega
  pointer := h'.pointer.trans h.pointer

theorem of_le (h : Rewrites n i v s t) (hm : m ≤ n) : Rewrites m i v s t :=
  { h with steps := Nat.le_trans (Nat.add_le_add_left hm _) h.steps }

theorem value_eq (h : Rewrites n i v s t) (hi : i < s.tape.size) : t.value i = v := by
  rw [State.value, h.tape]
  exact s.value_store_self hi v

theorem finds (hlimit : settings.stepLimit = none) (h : Rewrites n i v s t) {o : Int}
    (hs : s.Finds settings o i) : t.Finds settings o i := by
  refine ⟨by rw [Settings.cutOff?, hlimit], ?_⟩
  rw [h.tape, h.pointer, Array.size_setIfInBounds]
  exact hs.2

/-- What is related to the first state is related to the last one, once it stores the same value in
no more steps. -/
theorem related {shift : Int} (h : Rewrites n i v s u) (hrel : Related shift s t) (hm : m ≤ n) :
    Related shift u { t.store i v with steps := t.steps + m } where
  tape := by
    rw [h.tape]
    change t.tape.setIfInBounds i v = _
    rw [hrel.tape]
  console := hrel.console.trans h.console.symm
  steps := by
    have hle := hrel.steps
    have hsteps := h.steps
    change t.steps + m ≤ u.steps
    omega
  pointer := by
    rw [h.pointer]
    exact hrel.pointer

end State.Rewrites

namespace Nest

/-- An effect on the cell at an offset, `n` times. -/
def times (n : Nat) (e : Effect) (o : Int) : Nest :=
  match n with
  | 0 => .done
  | n + 1 => .act e o (times n e o)

/-- Changes by one that add up to an amount. -/
def units (amount : Int8) (o : Int) : Nest :=
  times amount.toInt.natAbs (.change (if amount.toInt < 0 then -1 else 1)) o

variable {settings : Settings} {s : State} {i : Nat}

/-- Changes of a cell that is found add up. -/
theorem times_runs (hlimit : settings.stepLimit = none) (n : Nat) (d : Int8) {o : Int}
    (h : s.Finds settings o i) :
    ∃ t, (times n (.change d) o).Runs settings s (.done t) ∧
      s.Rewrites n i (s.value i + Word.byte (n * d.toInt)) t := by
  induction n generalizing s with
  | zero =>
    have hzero : s.value i + Word.byte ((0 : Nat) * d.toInt) = s.value i := by
      rw [Int.natCast_zero, Int.zero_mul]
      exact UInt8.add_zero _
    refine ⟨s, rfl, ?_⟩
    rw [hzero]
    exact .refl s i
  | succ n ih =>
    have hrun : (Effect.change d).run settings o s = _ := h.visit _
    have hfirst := State.Rewrites.store s i (s.value i + Word.byte d.toInt)
    obtain ⟨t, hrest, hrewrites⟩ := ih (hfirst.finds hlimit h)
    refine ⟨t, seq_done hrun hrest, ?_⟩
    have hsum : s.value i + Word.byte d.toInt + Word.byte (n * d.toInt) =
        s.value i + Word.byte ((n + 1 : Nat) * d.toInt) := by
      have hbyte : Word.byte ((n + 1 : Nat) * d.toInt) =
          Word.byte d.toInt + Word.byte (n * d.toInt) := by
        rw [Int.natCast_succ, Int.add_mul, Int.one_mul, Int.add_comm]
        exact UInt8.ofInt_add _ _
      rw [hbyte, UInt8.add_assoc]
    rw [hfirst.value_eq h.lt_size, hsum] at hrewrites
    have hboth := hfirst.trans hrewrites
    rwa [Nat.add_comm 1 n] at hboth

theorem units_runs (hlimit : settings.stepLimit = none) (amount : Int8) {o : Int}
    (h : s.Finds settings o i) :
    ∃ t, (units amount o).Runs settings s (.done t) ∧
      s.Rewrites amount.toInt.natAbs i (s.value i + Word.byte amount.toInt) t := by
  have htotal : (amount.toInt.natAbs : Int) *
      (if amount.toInt < 0 then (-1 : Int8) else 1).toInt = amount.toInt := by
    split
    · change _ * (-1 : Int) = _
      omega
    · change _ * (1 : Int) = _
      omega
  obtain ⟨t, hrun, hrewrites⟩ := times_runs hlimit amount.toInt.natAbs
    (if amount.toInt < 0 then -1 else 1) h
  rw [htotal] at hrewrites
  exact ⟨t, hrun, hrewrites⟩

/-- Where the cell is not found, the first of the changes fails. -/
theorem units_fault {amount : Int8} (hamount : amount ≠ 0) {o : Int} {cause : Fault} {u : State}
    (h : ∀ use, s.visit settings o use = .fault cause u) :
    (units amount o).Runs settings s (.fault cause u) := by
  have hsome : amount.toInt.natAbs ≠ 0 := by
    rw [Int.natAbs_ne_zero]
    exact fun hzero => hamount (Int8.toInt_inj.mp hzero)
  obtain ⟨n, hn⟩ := Nat.exists_eq_succ_of_ne_zero hsome
  rw [units, hn]
  exact seq_fault (h _)

/-- A loop that takes one from its cell in each round leaves zero. -/
theorem countdown_iterates (hlimit : settings.stepLimit = none)
    (h : s.Finds settings 0 s.pointer) :
    ∃ t, Iterates (round settings ((act (.change (-1)) 0 done).Runs settings) 0) s (.done t) ∧
      s.Rewrites 0 s.pointer 0 t := by
  -- by the value of the cell
  generalize hv : s.current.toNat = v
  induction v generalizing s with
  | zero =>
    have hzero : s.value s.pointer = 0 := UInt8.toNat_inj.mp hv
    refine ⟨s, .stop hzero, ?_⟩
    have hrefl := State.Rewrites.refl s s.pointer
    rwa [hzero] at hrefl
  | succ v ih =>
    let u := s.counted.store s.pointer (s.current + Word.byte (-1 : Int8).toInt)
    have hfirst : s.Rewrites 1 s.pointer _ u := .store s s.pointer _
    have hchange : (Effect.change (-1)).run settings 0 s = .done u := h.visit _
    have hmove : u.moveBy settings 0 = .done (u.counted.movedTo s.pointer) :=
      (hfirst.finds hlimit h).visit _
    have hround : s.Rewrites 2 s.pointer _ (u.counted.movedTo s.pointer) :=
      ⟨rfl, rfl, Nat.le_refl _, rfl⟩
    have hcell : s.current ≠ 0 := by
      intro hzero
      rw [hzero] at hv
      cases hv
    have hnext : (u.counted.movedTo s.pointer).current.toNat = v := by
      rw [State.current_movedTo, State.value_counted, hfirst.value_eq h.lt_size, UInt8.toNat_add, hv]
      have hlt := s.current.toNat_lt
      change (v + 1 + 255) % 256 = v
      omega
    obtain ⟨t, hrest, hrewrites⟩ := ih (hround.finds hlimit h) hnext
    have hbody : (act (.change (-1)) 0 done).Runs settings s (.done u) := seq_done hchange rfl
    exact ⟨t, .again hcell (seq_done hbody hmove) hrest, (hround.trans hrewrites).of_le (by omega)⟩

end Nest

/-! ## Expanded programs -/

/-- An effect in the instructions that symbols stand for. -/
def Effect.expand (e : Effect) (o : Int) : Nest :=
  match e with
  | change d => .units d o
  | set v => .loop o (.act (.change (-1)) 0 .done) 0 (.units v 0)
  | input => .act .input o .done
  | output => .act .output o .done

/-- How far to the right the pointer of the expanded program is after an effect on the cell at `o`,
if it was `k` cells to the right before. -/
def Effect.settle (k o : Int) : Effect → Int
  | set _ => o
  | change _ | input | output => k

namespace Nest

/-- How far to the right the pointer of the expanded program is after a nest. -/
def settle (k : Int) : Nest → Int
  | done => k
  | act e o rest => rest.settle (e.settle k o)
  | loop _ _ _ rest => rest.settle 0

/-- The nest in the instructions that symbols stand for, to be run with the pointer `k` cells
further to the right. -/
def expand (k : Int) : Nest → Nest
  | done => done
  | act e o rest => e.expand (o - k) ++ rest.expand (e.settle k o)
  | loop entry body exit rest =>
    loop (entry - k) (body.expand 0) (exit - body.settle 0) (rest.expand 0)

end Nest

/-- Every change in the program changes something. -/
def Program.Effective (p : Program) : Prop :=
  ∀ o, .act (.change 0) o ∉ p

section

variable {settings : Settings}

/-- **An effect is expanded.** -/
theorem Effect.expand_expands (hlimit : settings.stepLimit = none) {e : Effect}
    (he : e ≠ .change 0) (k o : Int) :
    Expands k (e.settle k o) ((e.expand (o - k)).Runs settings) (of (e.run settings o)) := by
  have hact (e : Effect) :
      Expands k k ((Nest.act e (o - k) .done).Runs settings) (of (e.run settings o)) := by
    rw [Nest.Runs, Nest.Runs, seq_of_done]
    exact .act hlimit e o
  cases e with
  | input => exact hact .input
  | output => exact hact .output
  | change d =>
    rintro s t _ hrel rfl
    have hd : d ≠ 0 := fun h => he (congrArg _ h)
    rcases hrel.finds_or_fault hlimit o with ⟨i, hs, ht⟩ | ⟨cause, hfault⟩
    · obtain ⟨u, hrun, hrewrites⟩ := Nest.units_runs hlimit d hs
      refine ⟨_, hrun, ?_⟩
      have hone : 1 ≤ d.toInt.natAbs :=
        Int.natAbs_pos.mpr fun hzero => hd (Int8.toInt_inj.mp hzero)
      have hvalue : t.counted.value i = s.value i := by
        rw [State.value_counted, State.value, State.value, hrel.tape]
      rw [Effect.run, ht.visit, Effect.perform, hvalue]
      exact hrewrites.related hrel hone
    · refine ⟨_, Nest.units_fault hd fun use => (hfault use).1, ?_⟩
      rw [Effect.run, (hfault _).2]
      exact ⟨rfl, hrel.console⟩
  | set v =>
    rintro s t _ hrel rfl
    rcases hrel.finds_or_fault hlimit o with ⟨i, hs, ht⟩ | ⟨cause, hfault⟩
    · -- the move to the cell, the loop, and the changes
      have hmove : s.moveBy settings (o - k) = .done (s.counted.movedTo i) := hs.visit _
      have hhere : (s.counted.movedTo i).Finds settings 0 i := by
        refine ⟨by rw [Settings.cutOff?, hlimit], ?_⟩
        change locate s.tape.size ((i : Int) + 0) = .ok i
        rw [Int.add_zero, hs.eq_add]
        exact hs.2
      obtain ⟨u, hloop, hzero⟩ := Nest.countdown_iterates hlimit hhere
      have hzero : (s.counted.movedTo i).Rewrites 0 i 0 u := hzero
      obtain ⟨w, hunits, hrewrites⟩ := Nest.units_runs hlimit v (hzero.finds hlimit hhere)
      refine ⟨_, seq_done (seq_done hmove hloop) hunits, ?_⟩
      have hvalue : u.value i + Word.byte v.toInt = Word.byte v.toInt := by
        rw [hzero.value_eq hhere.lt_size, UInt8.zero_add]
      rw [hvalue] at hrewrites
      have hrel' : Related o (s.counted.movedTo i) t.counted :=
        ⟨hrel.tape, hrel.console, hrel.counted.steps, ht.eq_add⟩
      rw [Effect.run, ht.visit, Effect.perform]
      exact (hzero.trans hrewrites).related hrel' (Nat.zero_le _)
    · refine ⟨_, seq_fault (seq_fault (hfault _).1), ?_⟩
      rw [Effect.run, (hfault _).2]
      exact ⟨rfl, hrel.console⟩

namespace Nest

theorem effective_act {e : Effect} {o : Int} {rest : Nest}
    (h : Program.Effective (act e o rest).program) :
    e ≠ .change 0 ∧ Program.Effective rest.program := by
  refine ⟨?_, fun o' ho' => h o' (List.mem_cons_of_mem _ ho')⟩
  rintro rfl
  exact h o List.mem_cons_self

theorem effective_loop {entry exit : Int} {body rest : Nest}
    (h : Program.Effective (loop entry body exit rest).program) :
    Program.Effective body.program ∧ Program.Effective rest.program := by
  refine ⟨fun o ho => h o ?_, fun o ho => h o ?_⟩
  · simp [program, ho]
  · simp [program, ho]

/-- **Where a run ends, so does one of the expanded program**, and in the same way. -/
theorem expand_expands (hlimit : settings.stepLimit = none) (n : Nest)
    (hn : Program.Effective n.program) (k : Int) :
    Expands k (n.settle k) ((n.expand k).Runs settings) (n.Runs settings) := by
  induction n generalizing k with
  | done => exact .nil
  | act e o rest ih =>
    obtain ⟨he, hrest⟩ := effective_act hn
    rw [expand, runs_append]
    exact (e.expand_expands hlimit he k o).seq (ih hrest _)
  | loop entry body exit rest ihBody ihRest =>
    obtain ⟨hbody, hrest⟩ := effective_loop hn
    exact ((ihBody hbody 0).loop hlimit entry exit).seq (ihRest hrest 0)

/-! ## Runs on their way -/

/-- Behind a nest that has been run, the places are those of the nest that follows it. -/
theorem Visits.append_right {n k : Nest} {s t u : State} {before : Program}
    (hrun : n.Runs settings s (.done t)) (h : k.Visits settings t before u) :
    (n ++ k).Visits settings s (n.program ++ before) u := by
  induction n generalizing s with
  | done =>
    obtain rfl := Outcome.done.inj hrun
    exact h
  | act e o rest ih =>
    rcases seq_inv hrun with ⟨cause, v, -, he⟩ | ⟨v, hact, hrest⟩
    · cases he
    · exact .act hact (ih hrest)
  | loop entry body exit rest _ ih =>
    rcases seq_inv hrun with ⟨cause, v, -, he⟩ | ⟨v, hloop, hrest⟩
    · cases he
    · have hplace : (loop entry body exit rest).program ++ before =
          .enter entry :: (body.program ++ .leave exit :: (rest.program ++ before)) := by
        simp [program]
      rw [hplace]
      exact .behind hloop (ih hrest)

/-- **Wherever a run comes to, a run of the expanded program comes to the same state**, in no fewer
steps. -/
theorem Visits.expand (hlimit : settings.stepLimit = none) {n : Nest} {s t u : State} {k : Int}
    {before : Program} (h : n.Visits settings t before u) (hn : Program.Effective n.program)
    (hrel : Related k s t) :
    ∃ before' v l, (n.expand k).Visits settings s before' v ∧ Related l v u := by
  induction h generalizing s k with
  | here => exact ⟨[], s, k, .here, hrel⟩
  | @act e o rest t w u before hrun _ ih =>
    obtain ⟨he, hrest⟩ := effective_act hn
    obtain ⟨r, hr, hmatch⟩ := e.expand_expands hlimit he k o s t _ hrel hrun
    obtain ⟨v, rfl, hrel'⟩ := hmatch.exists_done_left
    obtain ⟨before', v', l, hvisits, hrel''⟩ := ih hrest hrel'
    exact ⟨_, v', l, .append_right hr hvisits, hrel''⟩
  | @inside entry exit body rest t w v u before hmove hrounds hcell _ ih =>
    obtain ⟨hbody, -⟩ := effective_loop hn
    obtain ⟨r, hr, hmatch⟩ := Expands.moveBy hlimit entry s t _ hrel hmove
    obtain ⟨x, rfl, henter⟩ := hmatch.exists_done_left
    have hround := (body.expand_expands hlimit hbody 0).round hlimit exit
    obtain ⟨y, hy, hrel'⟩ := hround.rounds henter hrounds
    obtain ⟨before', v', l, hvisits, hrel''⟩ := ih hbody hrel'
    exact ⟨_, v', l, .inside hr hy (hrel'.current_eq ▸ hcell) hvisits, hrel''⟩
  | @behind entry exit body rest t w u before hloop _ ih =>
    obtain ⟨hbody, hrest⟩ := effective_loop hn
    obtain ⟨r, hr, hmatch⟩ :=
      (body.expand_expands hlimit hbody 0).loop hlimit entry exit s t _ hrel hloop
    obtain ⟨x, rfl, hrel'⟩ := hmatch.exists_done_left
    obtain ⟨before', v', l, hvisits, hrel''⟩ := ih hrest hrel'
    exact ⟨_, v', l, .behind hr hvisits, hrel''⟩

end Nest

end

end Tapecode
